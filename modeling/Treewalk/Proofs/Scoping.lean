import Treewalk.Proofs.Execution.Agreement
import Treewalk.Proofs.Execution.Blocks
import Treewalk.Proofs.Scopes.Names

namespace Treewalk

open Machine

structure Use where
  name : String
  line : Nat
  deriving DecidableEq, Repr

def Use.failure (u : Use) : Abort :=
  .undefined u.name u.line

namespace Expr

def undeclared (names : Names) : Expr → Option Use
  | .literal .. => none
  | .group e _ | .unary _ e _ => e.undeclared names
  | .binary _ l r _ => (l.undeclared names).or (r.undeclared names)
  | .variable x line => if names.Declares x then none else some ⟨x, line⟩
  | .assign x e line => (e.undeclared names).or (if names.Declares x then none else some ⟨x, line⟩)

def earlier (names : Names) : Expr → List Expr
  | .literal .. | .variable .. => []
  | .group e _ | .unary _ e _ => e.earlier names
  | .binary _ l r _ => if l.undeclared names = none then l :: r.earlier names else l.earlier names
  | .assign _ e _ => if e.undeclared names = none then [e] else e.earlier names

end Expr

namespace Statement

mutual

def walk (names : Names) : Statement → Except Use Names
  | .expression e _ | .print e _ => (e.undeclared names).elim (.ok names) .error
  | .declare x initial _ => (initial.bind (Expr.undeclared names)).elim (.ok (names.declare x)) .error
  | .block body _ => (walkAll (∅ :: names) body).map fun _ => names

def walkAll (names : Names) : List Statement → Except Use Names
  | [] => .ok names
  | s :: ss => s.walk names >>= fun names => walkAll names ss

end

mutual

def earlier (names : Names) : Statement → List Statement
  | .expression e line | .print e line | .declare _ (some e) line => (e.earlier names).map (.expression · line)
  | .declare _ none _ => []
  | .block body line => [.block (earlierAll (∅ :: names) body) line]

def earlierAll (names : Names) : List Statement → List Statement
  | [] => []
  | s :: ss =>
      match s.walk names with
      | .ok names' => s :: earlierAll names' ss
      | .error _ => s.earlier names

end

end Statement

section Stays

variable {W α β : Type}

inductive Stays (env : Environment) (names : Names) : EStateM.Result Abort (Machine W) α → Prop
  | ok {a : α} {m : Machine W} :
      m.environment.shape = env.shape → m.environment.names = names → Stays env names (.ok a m)
  | error {e : RuntimeError} {m : Machine W} :
      m.environment.shape = env.shape → (∀ x, e.cause ≠ .undefinedVariable x) →
      Stays env names (.error (.error e) m)

theorem Stays.of_shape {env env' : Environment} {names : Names} {r : EStateM.Result Abort (Machine W) α}
    (h : Stays env' names r) (hshape : env'.shape = env.shape) : Stays env names r := by
  cases h with
  | ok hs hn => exact .ok (hs.trans hshape) hn
  | error hs he => exact .error (hs.trans hshape) he

def StaysIn (names : Names) (act : Exec W α) (names' : Names) : Prop :=
  ∀ m, m.environment.Rooted → m.environment.names = names → Stays m.environment names' (act m)

namespace StaysIn

variable {names names' names'' : Names}

theorem pure (a : α) : StaysIn names (pure a : Exec W α) names :=
  fun _ _ h => .ok rfl h

theorem bind {act : Exec W α} {next : α → Exec W β} (h : StaysIn names act names')
    (hnext : ∀ a, StaysIn names' (next a) names'') : StaysIn names (act >>= next) names'' := by
  intro m hroot hnames
  have hact := h m hroot hnames
  simp only [Bind.bind, EStateM.bind]
  generalize act m = r at hact
  cases hact with
  | ok hshape hn => exact (hnext _ _ (hroot.of_shape hshape) hn).of_shape hshape
  | error hshape he => exact .error hshape he

theorem tell (r : Record) : StaysIn names (tell r : Exec W Unit) names :=
  fun _ _ h => .ok rfl h

theorem printLine [Sink W] (text : String) (line : Nat) :
    StaysIn names (printLine text line : Exec W Unit) names := by
  intro m _ h
  unfold Machine.printLine
  obtain ⟨output, _ | reason⟩ := Sink.write m.output (text ++ "\n").toUTF8
  · exact .ok rfl h
  · exact .error rfl nofun

theorem raising {result : Except Cause Value} (h : ∀ x, result ≠ .error (.undefinedVariable x)) (line : Nat) :
    StaysIn names (onEnvironment (raiseOn line result) : Exec W Value) names := by
  intro m _ hm
  cases result with
  | ok v => exact .ok rfl hm
  | error cause => exact .error rfl fun x hx => h x (congrArg Except.error hx)

theorem reading {x : String} (h : names.Declares x) (line : Nat) :
    StaysIn names (reading x line : Exec W Value) names := by
  rintro m _ rfl
  obtain ⟨found, hfound, -⟩ := Environment.find_of_declares h line
  rw [reading_apply, Environment.get, hfound]
  exact .ok rfl rfl

theorem assigning {x : String} (h : names.Declares x) (line : Nat) (v : Value) :
    StaysIn names (assigning x line v : Exec W Value) names := by
  rintro m _ rfl
  obtain ⟨found, hfound, hx⟩ := Environment.find_of_declares h line
  rw [assigning_apply, Environment.assign, hfound]
  exact .ok (Environment.shape_bindIn ..) (Environment.names_assign hx v)

theorem declaring (x : String) (line : Nat) (v : Value) :
    StaysIn names (declaring x line v : Exec W Unit) (names.declare x) := by
  rintro m hroot rfl
  rw [declaring_apply, hroot.define_eq]
  exact .ok (Environment.shape_bindIn ..) (Environment.names_define hroot x v)

theorem inNewScope {act : Exec W Unit} {level : Finset String} (h : StaysIn (∅ :: names) act (level :: names)) :
    StaysIn names (inNewScope act) names := by
  rintro m hroot rfl
  obtain ⟨log, hentering⟩ := entering_of_rooted hroot.push
  have hstays := h ⟨m.environment.push, m.output, log⟩ hroot.push (Environment.names_push hroot)
  cases hact : act ⟨m.environment.push, m.output, log⟩ with
  | ok _ n =>
    rw [hact] at hstays
    cases hstays with
    | ok hshape hn =>
      obtain ⟨log', hscope⟩ := inNewScope_ok hentering hact (hroot.push.of_shape hshape)
      rw [hscope]
      refine .ok (Environment.shape_pop hshape hroot.size_pos) ?_
      rw [Environment.names_pop hroot hshape, hn, List.tail_cons]
  | error stop n =>
    rw [hact] at hstays
    cases hstays with
    | error hshape he =>
      obtain ⟨log', hscope⟩ := inNewScope_stopped hentering hact (hroot.push.of_shape hshape)
      rw [hscope]
      exact .error (Environment.shape_pop hshape hroot.size_pos) he

end StaysIn

end Stays

theorem UnaryOp.apply_ne_undefined (op : UnaryOp) (v : Value) (x : String) :
    op.apply v ≠ .error (.undefinedVariable x) := by
  cases op <;> cases v <;> nofun

theorem BinaryOp.apply_ne_undefined (op : BinaryOp) (a b : Value) (x : String) :
    op.apply a b ≠ .error (.undefinedVariable x) := by
  cases op <;> cases a <;> cases b <;> nofun

section

variable {W : Type} {names names' : Names}

theorem Expr.eval_stays {e : Expr} (h : e.undeclared names = none) :
    StaysIn names (onEnvironment e.eval : Exec W Value) names := by
  induction e with
  | literal v line => exact .pure v
  | group e line ih => exact ih h
  | unary op e line ih =>
    rw [eval, onEnvironment_bind]
    exact (ih h).bind fun v => .raising (op.apply_ne_undefined v) line
  | binary op l r line ihl ihr =>
    obtain ⟨hl, hr⟩ := Option.or_eq_none_iff.mp h
    rw [eval, onEnvironment_bind]
    refine (ihl hl).bind fun a => ?_
    rw [onEnvironment_bind]
    exact (ihr hr).bind fun b => .raising (op.apply_ne_undefined a b) line
  | «variable» x line =>
    have hx : names.Declares x := by simpa [undeclared] using h
    exact .reading hx line
  | assign x e line ih =>
    obtain ⟨he, hx⟩ := Option.or_eq_none_iff.mp h
    have hx : names.Declares x := by simpa using hx
    rw [eval, onEnvironment_bind]
    exact (ih he).bind fun v => .assigning hx line v

end

namespace Statement

variable {W : Type} {names names' : Names} {u : Use}

theorem walk_elim_ok {found : Option Use} (h : found.elim (.ok names) .error = Except.ok names') :
    found = none ∧ names = names' := by
  cases found with
  | none =>
    cases h
    exact ⟨rfl, rfl⟩
  | some u => cases h

theorem walk_elim_error {found : Option Use} (h : found.elim (.ok names) .error = Except.error u) :
    found = some u := by
  cases found with
  | none => cases h
  | some u =>
    cases h
    rfl

theorem walk_block_ok {body : List Statement} {line : Nat} (h : (block body line).walk names = .ok names') :
    names = names' ∧ ∃ inner, walkAll (∅ :: names) body = .ok inner := by
  rw [walk] at h
  cases hbody : walkAll (∅ :: names) body with
  | ok inner =>
    rw [hbody] at h
    exact ⟨Except.ok.inj h, inner, rfl⟩
  | error u =>
    rw [hbody] at h
    cases h

theorem walk_block_error {body : List Statement} {line : Nat} (h : (block body line).walk names = .error u) :
    walkAll (∅ :: names) body = .error u := by
  rw [walk] at h
  cases hbody : walkAll (∅ :: names) body with
  | ok inner =>
    rw [hbody] at h
    cases h
  | error u' =>
    rw [hbody] at h
    exact h

theorem walkAll_of_ok {s : Statement} (h : s.walk names = .ok names') (ss : List Statement) :
    walkAll names (s :: ss) = walkAll names' ss := by
  rw [walkAll, h]
  rfl

theorem walkAll_of_error {s : Statement} (h : s.walk names = .error u) (ss : List Statement) :
    walkAll names (s :: ss) = .error u := by
  rw [walkAll, h]
  rfl

mutual

theorem walk_keeps_outer {level : Finset String} {outer : Names} :
    {s : Statement} → {names : Names} → s.walk (level :: outer) = .ok names → ∃ level', names = level' :: outer
  | .expression _ _, _, h | .print _ _, _, h => ⟨_, (walk_elim_ok h).2.symm⟩
  | .declare _ _ _, _, h => ⟨_, (walk_elim_ok h).2.symm⟩
  | .block _ _, _, h => ⟨_, (walk_block_ok h).1.symm⟩

theorem walkAll_keeps_outer {level : Finset String} {outer : Names} :
    {ss : List Statement} → {names : Names} → walkAll (level :: outer) ss = .ok names →
      ∃ level', names = level' :: outer
  | [], _, h => ⟨_, (Except.ok.inj h).symm⟩
  | s :: ss, _, h => by
    cases hs : s.walk (level :: outer) with
    | ok names =>
      obtain ⟨level', rfl⟩ := walk_keeps_outer hs
      rw [walkAll_of_ok hs] at h
      exact walkAll_keeps_outer h
    | error u =>
      rw [walkAll_of_error hs] at h
      cases h

end

mutual

theorem exec_stays [Sink W] : {s : Statement} → {names names' : Names} → s.walk names = .ok names' →
    StaysIn names (exec s : Exec W Unit) names'
  | .expression e line, _, _, h => by
    obtain ⟨he, rfl⟩ := walk_elim_ok h
    rw [exec]
    exact (StaysIn.tell _).bind fun _ => (Expr.eval_stays he).bind fun _ => .pure ()
  | .print e line, _, _, h => by
    obtain ⟨he, rfl⟩ := walk_elim_ok h
    rw [exec]
    exact (Expr.eval_stays he).bind fun v => .printLine v.text line
  | .declare x none line, _, _, h => by
    obtain rfl := Except.ok.inj h
    rw [exec]
    exact (StaysIn.pure Value.nil).bind fun v => .declaring x line v
  | .declare x (some e) line, _, _, h => by
    obtain ⟨he, rfl⟩ := walk_elim_ok h
    rw [exec]
    exact (Expr.eval_stays he).bind fun v => .declaring x line v
  | .block body line, _, _, h => by
    obtain ⟨rfl, inner, hbody⟩ := walk_block_ok h
    obtain ⟨level, rfl⟩ := walkAll_keeps_outer hbody
    rw [exec]
    exact .inNewScope (execAll_stays hbody)

theorem execAll_stays [Sink W] : {ss : List Statement} → {names names' : Names} → walkAll names ss = .ok names' →
    StaysIn names (execAll ss : Exec W Unit) names'
  | [], _, _, h => by
    cases h
    rw [execAll]
    exact .pure ()
  | s :: ss, names, _, h => by
    rw [execAll]
    cases hs : s.walk names with
    | ok names' =>
      rw [walkAll_of_ok hs] at h
      exact (exec_stays hs).bind fun _ => execAll_stays h
    | error u =>
      rw [walkAll_of_error hs] at h
      cases h

end

end Statement

section Stops

variable {W α β : Type}

inductive Stops (u : Use) :
    EStateM.Result Abort (Machine W) α → EStateM.Result Abort (Machine W) Unit → Prop
  | late {m m' : Machine W} : m.Alike Eq m' → Stops u (.error u.failure m) (.ok () m')
  | early {stop : Abort} {m m' : Machine W} : m.Alike Eq m' → Stops u (.error stop m) (.error stop m')

def StopsAt (u : Use) (names : Names) (act : Exec W α) (part : Exec W Unit) : Prop :=
  ∀ m m', m.Alike Eq m' → m.environment.Rooted → m.environment.names = names → Stops u (act m) (part m')

namespace StopsAt

variable {u : Use} {names names' : Names}

theorem bind {act : Exec W α} {part : Exec W Unit} (h : StopsAt u names act part) (next : α → Exec W β) :
    StopsAt u names (act >>= next) part := by
  intro m m' halike hroot hnames
  have hact := h m m' halike hroot hnames
  simp only [Bind.bind, EStateM.bind]
  generalize act m = r at hact
  generalize part m' = r' at hact ⊢
  cases hact with
  | late h => exact .late h
  | early h => exact .early h

theorem telling {act : Exec W α} {part : Exec W Unit} (h : StopsAt u names act part) (r : Record) :
    StopsAt u names act (Machine.tell r >>= fun _ => part) :=
  fun m m' halike hroot hnames =>
    h m { m' with log := m'.log.push r } ⟨halike.environment, halike.output⟩ hroot hnames

theorem told {act : Exec W α} {part : Exec W Unit} (h : StopsAt u names act part) (r : Record) :
    StopsAt u names (Machine.tell r >>= fun _ => act) part :=
  fun m m' halike hroot hnames =>
    h { m with log := m.log.push r } m' ⟨halike.environment, halike.output⟩ hroot hnames

theorem after {first first' : Exec W α} {next : α → Exec W β} {part : Exec W Unit}
    (hfirst : StaysIn names first names') (hmirrors : Mirrors id Eq first first')
    (h : ∀ a, StopsAt u names' (next a) part) :
    StopsAt u names (first >>= next) (first' >>= fun _ => part) := by
  intro m m' halike hroot hnames
  have hstays := hfirst m hroot hnames
  simp only [Bind.bind, EStateM.bind]
  rcases (hmirrors m m' halike).cases with ⟨a, n, n', hm, hm', hn⟩ | ⟨stop, n, n', hm, hm', hn⟩
  · rw [hm] at hstays ⊢
    rw [hm']
    cases hstays with
    | ok hshape hnames' => exact h a n n' hn (hroot.of_shape hshape) hnames'
  · rw [hm, hm', Abort.mapLine_id]
    exact .early hn

theorem inNewScope {act part : Exec W Unit} (h : StopsAt u (∅ :: names) act part) :
    StopsAt u names (inNewScope act) (inNewScope part) := by
  rintro m m' halike hroot rfl
  obtain ⟨log, hentering⟩ := entering_of_rooted hroot.push
  obtain ⟨log', hentering'⟩ := entering_of_rooted (halike.environment.symm ▸ hroot.push : m'.environment.push.Rooted)
  have hinner := h ⟨m.environment.push, m.output, log⟩ ⟨m'.environment.push, m'.output, log'⟩
    ⟨congrArg Environment.push halike.environment, halike.output⟩ hroot.push (Environment.names_push hroot)
  simp only [inNewScope_eq, Bind.bind, EStateM.bind, hentering, hentering', tryFinally, tryFinally', Functor.map,
    EStateM.map, halike.environment]
  rw [halike.environment] at hinner
  generalize act ⟨m.environment.push, m.output, log⟩ = r at hinner
  generalize part ⟨m.environment.push, m'.output, log'⟩ = r' at hinner ⊢
  cases hinner with
  | late hn =>
    rcases (Mirrors.leaving (f := id) m.environment.current _ _ hn).cases with
      ⟨_, k, k', hk, hk', hkk'⟩ | ⟨stop, k, k', hk, hk', hkk'⟩
    · simp only [hk, hk']
      exact .late hkk'
    · simp only [hk, hk', Abort.mapLine_id]
      exact .early hkk'
  | early hn =>
    rcases (Mirrors.leaving (f := id) m.environment.current _ _ hn).cases with
      ⟨_, k, k', hk, hk', hkk'⟩ | ⟨stop, k, k', hk, hk', hkk'⟩
    · simp only [hk, hk']
      exact .early hkk'
    · simp only [hk, hk', Abort.mapLine_id]
      exact .early hkk'

theorem reading {x : String} {line : Nat} (h : ¬ names.Declares x) :
    StopsAt ⟨x, line⟩ names (reading x line : Exec W Value) (pure ()) := by
  rintro m m' halike hroot rfl
  rw [reading_apply, Environment.get, Environment.find_of_not_declares hroot h]
  exact .late halike

theorem assigning {x : String} {line : Nat} (h : ¬ names.Declares x) (v : Value) :
    StopsAt ⟨x, line⟩ names (assigning x line v : Exec W Value) (pure ()) := by
  rintro m m' halike hroot rfl
  rw [assigning_apply, Environment.assign, Environment.find_of_not_declares hroot h]
  exact .late halike

end StopsAt

end Stops

section

variable {W : Type} [Sink W] {u : Use} {names : Names}

theorem Statement.exec_mirrors_self (s : Statement) : Mirrors id Eq (s.exec : Exec W Unit) s.exec := by
  have h := s.exec_mirrors (f := id) (R := (Eq : W → W → Prop)) fun _ _ _ h => h ▸ ⟨rfl, rfl⟩
  rwa [s.mapLines_id] at h

theorem StopsAt.evaluating {α : Type} {e : Expr} {next : Value → Exec W α} {part : Exec W Unit} (line : Nat)
    (he : e.undeclared names = none) (h : ∀ v, StopsAt u names (next v) part) :
    StopsAt u names (onEnvironment e.eval >>= next) ((Statement.expression e line).exec >>= fun _ => part) := by
  have hpart : ((Statement.expression e line).exec >>= fun _ => part : Exec W Unit) =
      Machine.tell (.evaluating line) >>= fun _ => onEnvironment e.eval >>= fun _ => part := by
    rw [Statement.exec]
    simp only [bind_assoc, pure_bind]
  rw [hpart]
  exact (StopsAt.after (Expr.eval_stays he) (.acting e.eval) h).telling _

theorem Expr.eval_stops {e : Expr} (h : e.undeclared names = some u) (line : Nat) :
    StopsAt u names (onEnvironment e.eval : Exec W Value)
      (Statement.execAll ((e.earlier names).map (.expression · line))) := by
  induction e with
  | literal v line => cases h
  | group e line ih => exact ih h
  | unary op e line ih =>
    rw [eval, onEnvironment_bind]
    exact (ih h).bind _
  | binary op l r line' ihl ihr =>
    rw [eval, onEnvironment_bind, earlier]
    cases hl : l.undeclared names with
    | none =>
      rw [undeclared, hl, Option.none_or] at h
      rw [if_pos rfl, List.map_cons, Statement.execAll]
      refine .evaluating line hl fun a => ?_
      rw [onEnvironment_bind]
      exact (ihr h).bind _
    | some u' =>
      rw [undeclared, hl, Option.some_or] at h
      rw [if_neg (Option.some_ne_none u')]
      exact (ihl (hl.trans h)).bind _
  | «variable» x line' =>
    rw [undeclared] at h
    split at h
    · cases h
    · cases h
      rename_i hx
      rw [earlier, List.map_nil, Statement.execAll]
      exact .reading hx
  | assign x e line' ih =>
    rw [eval, onEnvironment_bind, earlier]
    cases he : e.undeclared names with
    | none =>
      rw [undeclared, he, Option.none_or] at h
      split at h
      · cases h
      · cases h
        rename_i hx
        rw [if_pos rfl, List.map_singleton, Statement.execAll]
        exact .evaluating line he fun v => .assigning hx v
    | some u' =>
      rw [undeclared, he, Option.some_or] at h
      rw [if_neg (Option.some_ne_none u')]
      exact (ih (he.trans h)).bind _

end

theorem Expr.undeclared_of_mem_earlier {names : Names} (e : Expr) {e' : Expr} (h : e' ∈ e.earlier names) :
    e'.undeclared names = none := by
  induction e with
  | literal | «variable» => cases h
  | group _ _ ih | unary _ _ _ ih => exact ih h
  | binary op l r line ihl ihr =>
    rw [earlier] at h
    split at h
    · rename_i hl
      obtain rfl | hr := List.mem_cons.mp h
      · exact hl
      · exact ihr hr
    · exact ihl h
  | assign x e line ih =>
    rw [earlier] at h
    split at h
    · rename_i he
      obtain rfl := List.mem_singleton.mp h
      exact he
    · exact ih h

namespace Statement

variable {W : Type} [Sink W]

mutual

theorem exec_stops {u : Use} : {s : Statement} → {names : Names} → s.walk names = .error u →
    StopsAt u names (exec s : Exec W Unit) (execAll (s.earlier names))
  | .expression e line, _, h => by
    rw [exec, earlier]
    exact ((Expr.eval_stops (walk_elim_error h) line).bind _).told _
  | .print e line, _, h => by
    rw [exec, earlier]
    exact (Expr.eval_stops (walk_elim_error h) line).bind _
  | .declare x none line, _, h => by cases h
  | .declare x (some e) line, _, h => by
    rw [exec, earlier]
    exact (Expr.eval_stops (walk_elim_error h) line).bind _
  | .block body line, _, h => by
    rw [exec, earlier, execAll_singleton, exec]
    exact .inNewScope (execAll_stops (walk_block_error h))

theorem execAll_stops {u : Use} : {ss : List Statement} → {names : Names} → walkAll names ss = .error u →
    StopsAt u names (execAll ss : Exec W Unit) (execAll (earlierAll names ss))
  | [], _, h => by cases h
  | s :: ss, names, h => by
    rw [execAll, earlierAll]
    cases hs : s.walk names with
    | ok names' =>
      rw [walkAll_of_ok hs] at h
      simp only [execAll]
      exact .after (exec_stays hs) s.exec_mirrors_self fun _ => execAll_stops h
    | error u' =>
      rw [walkAll_of_error hs] at h
      cases h
      exact (exec_stops hs).bind _

end

theorem walkAll_expressions {names : Names} {es : List Expr} (h : ∀ e ∈ es, e.undeclared names = none)
    (line : Nat) : walkAll names (es.map (.expression · line)) = .ok names := by
  induction es with
  | nil => rfl
  | cons e es ih =>
    obtain ⟨he, hes⟩ := List.forall_mem_cons.mp h
    have hwalk : (expression e line).walk names = .ok names := by rw [walk, he, Option.elim_none]
    rw [List.map_cons, walkAll_of_ok hwalk, ih hes]

mutual

theorem walk_earlier : (s : Statement) → (names : Names) → ∃ names', walkAll names (s.earlier names) = .ok names'
  | .expression e line, names | .print e line, names | .declare _ (some e) line, names =>
    ⟨names, walkAll_expressions (fun _ => e.undeclared_of_mem_earlier) line⟩
  | .declare _ none _, names => ⟨names, rfl⟩
  | .block body line, names => by
    obtain ⟨inner, hinner⟩ := walkAll_earlier body (∅ :: names)
    refine ⟨names, walkAll_of_ok ?_ []⟩
    rw [walk, hinner]
    rfl

theorem walkAll_earlier :
    (ss : List Statement) → (names : Names) → ∃ names', walkAll names (earlierAll names ss) = .ok names'
  | [], names => ⟨names, rfl⟩
  | s :: ss, names => by
    rw [earlierAll]
    cases hs : s.walk names with
    | ok names' =>
      simp only [walkAll_of_ok hs]
      exact walkAll_earlier ss names'
    | error u => exact walk_earlier s names

end

end Statement

namespace Effect

variable {W : Type} [Sink W]

def Defined (x : Effect W) : Prop :=
  ∀ failure, x.result = .error failure → ∃ e, failure = .runtime e ∧ ∀ name, e.cause ≠ .undefinedVariable name

omit [Sink W] in
theorem defined_of_stays {env : Environment} {names : Names} {r : EStateM.Result Abort (Machine W) Unit}
    (h : Stays env names r) :
    (ofExec r).Defined ∧ ((ofExec r).result = .ok () → (ofExec r).environment.names = names) := by
  cases h with
  | ok _ hn => exact ⟨nofun, fun _ => hn⟩
  | @error e n _ he =>
    refine ⟨fun failure hf => ⟨e, ?_, he⟩, nofun⟩
    exact (Except.error.inj hf).symm

omit [Sink W] in
theorem ofExec_stops {u : Use} {r r' : EStateM.Result Abort (Machine W) Unit} (h : Stops u r r') :
    (∀ failure, (ofExec r').result = .error failure → ofExec r = ofExec r') ∧
      ((ofExec r').result = .ok () → ofExec r = { ofExec r' with
        result := .error (.runtime ⟨.undefinedVariable u.name, u.line⟩) }) := by
  cases h with
  | late hn =>
    refine ⟨nofun, fun _ => ?_⟩
    simp only [ofExec, hn.environment, hn.output]
    rfl
  | early hn =>
    refine ⟨fun _ _ => ?_, nofun⟩
    simp only [ofExec, hn.environment, hn.output]

end Effect

theorem scoping_is_static {W : Type} [Sink W] (ss : List Statement) (m : Machine W) (h : m.environment.Rooted) :
    let names := m.environment.names
    let whole := Effect.ofExec (Statement.interpret ss m)
    let part := Effect.ofExec (Statement.interpret (Statement.earlierAll names ss) m)
    (∀ names', Statement.walkAll names ss = .ok names' →
      whole.Defined ∧ (whole.result = .ok () → whole.environment.names = names')) ∧
    ∀ u, Statement.walkAll names ss = .error u →
      part.Defined ∧ (∀ failure, part.result = .error failure → whole = part) ∧
        (part.result = .ok () →
          whole = { part with result := .error (.runtime ⟨.undefinedVariable u.name, u.line⟩) }) := by
  intro names whole part
  have hwhole : whole = Effect.ofExec (Statement.execAll ss m) := Effect.ofExec_interpret ss m
  have hpart : part = Effect.ofExec (Statement.execAll (Statement.earlierAll names ss) m) :=
    Effect.ofExec_interpret _ m
  rw [hwhole, hpart]
  refine ⟨fun names' hwalk => ?_, fun u hwalk => ⟨?_, ?_⟩⟩
  · exact Effect.defined_of_stays (Statement.execAll_stays hwalk m h rfl)
  · obtain ⟨names', hearlier⟩ := Statement.walkAll_earlier ss names
    exact (Effect.defined_of_stays (Statement.execAll_stays hearlier m h rfl)).1
  · exact Effect.ofExec_stops (Statement.execAll_stops hwalk m m ⟨rfl, rfl⟩ h rfl)

theorem scoping_is_static_nested :
    let environment : Environment :=
      ⟨#[⟨[("a", .boolean true)], none⟩, ⟨[("b", .nil)], some .global⟩], ⟨1⟩⟩
    let m : Machine ByteArray := ⟨environment, .empty, #[]⟩
    let shadow := Statement.declare "a" (some (.assign "b" (.variable "a" 2) 2)) 2
    let undeclared := Statement.print (.binary .equal (.variable "a" 3) (.assign "c" (.variable "b" 4) 4) 3) 3
    let failing := Statement.print (.unary .negate (.variable "b" 1) 1) 1
    let left : Environment :=
      ⟨#[⟨[("a", .boolean true)], none⟩, ⟨[("b", .boolean true)], some .global⟩], ⟨1⟩⟩
    let late := Effect.ofExec (Statement.interpret [.block [shadow, undeclared] 1] m)
    let early := Effect.ofExec (Statement.interpret [failing, undeclared] m)
    environment.Rooted ∧
      late.result = .error (.runtime ⟨.undefinedVariable "c", 4⟩) ∧ late.environment = left ∧
      early.result = .error (.runtime ⟨.expectedNumber, 1⟩) ∧ early.environment = environment ∧
      (Effect.ofExec (Statement.interpret [.block [shadow] 1, failing] m)).Defined := by
  intro environment m shadow undeclared failing left late early
  have hroot : environment.Rooted := rfl
  obtain ⟨-, hlate⟩ := scoping_is_static [.block [shadow, undeclared] 1] m hroot
  obtain ⟨-, hearly⟩ := scoping_is_static [failing, undeclared] m hroot
  obtain ⟨hdefined, -⟩ := scoping_is_static [.block [shadow] 1, failing] m hroot
  obtain ⟨-, -, hlate⟩ := hlate ⟨"c", 4⟩ (by decide +kernel)
  obtain ⟨-, hearly, -⟩ := hearly ⟨"c", 4⟩ (by decide +kernel)
  have hlate : late = _ := hlate (by decide +kernel)
  have hearly : early = _ := hearly (.runtime ⟨.expectedNumber, 1⟩) (by decide +kernel)
  refine ⟨hroot, ?_, ?_, ?_, ?_, (hdefined [{"b"}, {"a"}] (by decide +kernel)).1⟩
  · rw [hlate]
  · rw [hlate]
    decide +kernel
  · rw [hearly]
    decide +kernel
  · rw [hearly]
    decide +kernel

end Treewalk
