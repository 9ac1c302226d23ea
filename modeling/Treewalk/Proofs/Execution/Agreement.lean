import Treewalk.Proofs.Execution.Steps
import Treewalk.Proofs.Lines

namespace Treewalk

open Machine

variable {W V : Type}

structure Machine.Alike (R : W → V → Prop) (m : Machine W) (m' : Machine V) : Prop where
  environment : m'.environment = m.environment
  output : R m.output m'.output

inductive Matches {ε α : Type} (g : ε → ε) (R : W → V → Prop) :
    EStateM.Result ε (Machine W) α → EStateM.Result ε (Machine V) α → Prop
  | ok {a : α} {m : Machine W} {m' : Machine V} : m.Alike R m' → Matches g R (.ok a m) (.ok a m')
  | error {e : ε} {m : Machine W} {m' : Machine V} :
      m.Alike R m' → Matches g R (.error e m) (.error (g e) m')

theorem Matches.cases {ε α : Type} {g : ε → ε} {R : W → V → Prop}
    {r : EStateM.Result ε (Machine W) α} {r' : EStateM.Result ε (Machine V) α} (h : Matches g R r r') :
    (∃ a m m', r = .ok a m ∧ r' = .ok a m' ∧ m.Alike R m') ∨
      ∃ e m m', r = .error e m ∧ r' = .error (g e) m' ∧ m.Alike R m' := by
  cases h with
  | ok h => exact .inl ⟨_, _, _, rfl, rfl, h⟩
  | error h => exact .inr ⟨_, _, _, rfl, rfl, h⟩

def Mirrors {α : Type} (f : Nat → Nat) (R : W → V → Prop) (x : Exec W α) (y : Exec V α) : Prop :=
  ∀ m m', m.Alike R m' → Matches (Abort.mapLine f) R (x m) (y m')

def Sink.Corresponds [Sink W] [Sink V] (R : W → V → Prop) : Prop :=
  ∀ o o' bytes, R o o' → R (write o bytes).1 (write o' bytes).1 ∧ (write o' bytes).2 = (write o bytes).2

namespace Environment

variable {f : Nat → Nat} (env : Environment) (name : String) (line : Nat)

theorem find_mapLine : env.find name (f line) = (env.find name line).mapError (Abort.mapLine f) := by
  unfold find
  cases env.resolve name with
  | ok found => cases found <;> rfl
  | error fault => rfl

theorem get_mapLine : env.get name (f line) = (env.get name line).mapError (Abort.mapLine f) := by
  unfold get
  rw [find_mapLine]
  cases env.find name line <;> rfl

theorem assign_mapLine (v : Value) :
    env.assign name v (f line) = (env.assign name v line).mapError (Abort.mapLine f) := by
  unfold assign
  rw [find_mapLine]
  cases env.find name line <;> rfl

end Environment

namespace Mirrors

variable {f : Nat → Nat} {R : W → V → Prop} {α β : Type}

theorem pure (a : α) : Mirrors f R (pure a) (pure a) :=
  fun _ _ h => .ok h

theorem bind {x : Exec W α} {y : Exec V α} {next : α → Exec W β} {next' : α → Exec V β}
    (h : Mirrors f R x y) (hnext : ∀ a, Mirrors f R (next a) (next' a)) :
    Mirrors f R (x >>= next) (y >>= next') := by
  intro m m' hm
  rcases (h m m' hm).cases with ⟨a, n, n', hx, hy, hn⟩ | ⟨e, n, n', hx, hy, hn⟩
  · simp only [Bind.bind, EStateM.bind, hx, hy]
    exact hnext a n n' hn
  · simp only [Bind.bind, EStateM.bind, hx, hy]
    exact .error hn

theorem tell (r r' : Record) : Mirrors f R (tell r) (tell r') :=
  fun _ _ h => .ok ⟨h.environment, h.output⟩

theorem raising (line : Nat) (result : Except Cause Value) :
    Mirrors f R (onEnvironment (raiseOn line result)) (onEnvironment (raiseOn (f line) result)) := by
  intro m m' h
  cases result with
  | ok v => exact .ok h
  | error cause => exact .error h

theorem reading (name : String) (line : Nat) : Mirrors f R (reading name line) (reading name (f line)) := by
  intro m m' h
  rw [reading_apply, reading_apply, h.environment, Environment.get_mapLine]
  cases m.environment.get name line with
  | ok v => exact .ok h
  | error a => exact .error h

theorem assigning (name : String) (line : Nat) (v : Value) :
    Mirrors f R (assigning name line v) (assigning name (f line) v) := by
  intro m m' h
  rw [assigning_apply, assigning_apply, h.environment, Environment.assign_mapLine]
  cases m.environment.assign name v line with
  | ok env => exact .ok ⟨rfl, h.output⟩
  | error a => exact .error h

theorem declaring (name : String) (line line' : Nat) (v : Value) :
    Mirrors f R (declaring name line v) (declaring name line' v) := by
  intro m m' h
  rw [declaring_apply, declaring_apply, h.environment, Environment.define]
  by_cases hc : m.environment.current.index < m.environment.scopes.size
  · rw [if_pos hc]
    exact .ok ⟨rfl, h.output⟩
  · rw [if_neg hc]
    exact .error (e := Abort.fault _) ⟨rfl, h.output⟩

theorem entering : Mirrors f R entering entering := by
  intro m m' h
  simp only [Machine.entering, onEnvironment, Environment.enter, Bind.bind, EStateM.bind, h.environment]
  cases m.environment.push.depth with
  | ok depth => exact .ok ⟨rfl, h.output⟩
  | error fault => exact .error (e := Abort.fault _) ⟨rfl, h.output⟩

theorem leaving (enclosing : ScopeId) : Mirrors f R (leaving enclosing) (leaving enclosing) := by
  intro m m' h
  simp only [Machine.leaving, onEnvironment, Environment.leave, Bind.bind, EStateM.bind, h.environment]
  cases m.environment.depth with
  | ok depth => exact .ok ⟨rfl, h.output⟩
  | error fault => exact .error (e := Abort.fault _) ⟨rfl, h.output⟩

theorem finish_at {x : Exec W α} {y : Exec V α} {last : Exec W β} {last' : Exec V β} {m : Machine W} {m' : Machine V}
    (h : Matches (Abort.mapLine f) R (x m) (y m')) (hlast : Mirrors f R last last') :
    Matches (Abort.mapLine f) R (tryFinally x last m) (tryFinally y last' m') := by
  rcases h.cases with ⟨a, n, n', hx, hy, hn⟩ | ⟨e, n, n', hx, hy, hn⟩
  · simp only [tryFinally, tryFinally', Functor.map, EStateM.map, hx, hy]
    rcases (hlast n n' hn).cases with ⟨b, k, k', hl, hl', hk⟩ | ⟨e, k, k', hl, hl', hk⟩
    · rw [hl, hl']
      exact .ok hk
    · rw [hl, hl']
      exact .error hk
  · simp only [tryFinally, tryFinally', Functor.map, EStateM.map, hx, hy]
    rcases (hlast n n' hn).cases with ⟨b, k, k', hl, hl', hk⟩ | ⟨e', k, k', hl, hl', hk⟩
    · rw [hl, hl']
      exact .error hk
    · rw [hl, hl']
      exact .error hk

theorem finish {x : Exec W α} {y : Exec V α} {last : Exec W β} {last' : Exec V β}
    (h : Mirrors f R x y) (hlast : Mirrors f R last last') :
    Mirrors f R (tryFinally x last) (tryFinally y last') :=
  fun m m' hm => finish_at (h m m' hm) hlast

theorem printLine [Sink W] [Sink V] (hR : Sink.Corresponds R) (text : String) (line : Nat) :
    Mirrors f R (printLine text line) (printLine text (f line)) := by
  intro m m' h
  obtain ⟨houtput, hreason⟩ := hR _ _ (text ++ "\n").toUTF8 h.output
  unfold Machine.printLine
  revert houtput hreason
  generalize Sink.write m.output (text ++ "\n").toUTF8 = taken
  generalize Sink.write m'.output (text ++ "\n").toUTF8 = taken'
  obtain ⟨output, reason⟩ := taken
  obtain ⟨output', reason'⟩ := taken'
  rintro houtput rfl
  cases reason' with
  | none => exact .ok ⟨h.environment, houtput⟩
  | some reason => exact .error (e := Abort.error ⟨.output reason, line⟩) ⟨h.environment, houtput⟩

theorem eval (e : Expr) : Mirrors f R (onEnvironment e.eval) (onEnvironment (e.mapLines f).eval) := by
  induction e with
  | literal v line => exact pure v
  | group e line ih => exact ih
  | unary op e line ih =>
    simp only [Expr.eval, Expr.mapLines, onEnvironment_bind]
    exact ih.bind fun v => raising line _
  | binary op l r line ihl ihr =>
    simp only [Expr.eval, Expr.mapLines, onEnvironment_bind]
    exact ihl.bind fun a => ihr.bind fun b => raising line _
  | «variable» name line => exact reading name line
  | assign name e line ih =>
    rw [Expr.eval, Expr.mapLines, Expr.eval, onEnvironment_bind, onEnvironment_bind]
    exact ih.bind fun v => assigning name line v

theorem acting (act : EStateM Abort Environment α) : Mirrors id R (onEnvironment act) (onEnvironment act) := by
  intro m m' h
  rw [onEnvironment, onEnvironment, h.environment]
  cases act m.environment with
  | ok a env => exact .ok ⟨rfl, h.output⟩
  | error stop env => cases stop <;> exact .error ⟨rfl, h.output⟩

end Mirrors

namespace Statement

variable [Sink W] [Sink V] {f : Nat → Nat} {R : W → V → Prop}

mutual

theorem exec_mirrors (hR : Sink.Corresponds R) :
    (s : Statement) → Mirrors f R (exec s) (exec (s.mapLines f))
  | .expression e line => by
    rw [mapLines, exec, exec]
    exact (Mirrors.tell _ _).bind fun _ => (Mirrors.eval e).bind fun _ => .pure ()
  | .print e line => by
    rw [mapLines, exec, exec]
    exact (Mirrors.eval e).bind fun v => .printLine hR v.text line
  | .declare name none line => by
    change Mirrors f R (exec (.declare name none line)) (exec (.declare name none (f line)))
    rw [exec, exec]
    exact (Mirrors.pure Value.nil).bind fun v => .declaring name line (f line) v
  | .declare name (some e) line => by
    change Mirrors f R (exec (.declare name (some e) line)) (exec (.declare name (some (e.mapLines f)) (f line)))
    rw [exec, exec]
    exact (Mirrors.eval e).bind fun v => .declaring name line (f line) v
  | .block body line => by
    rw [mapLines, exec, exec, inNewScope_eq, inNewScope_eq]
    exact Mirrors.entering.bind fun enclosing => (execAll_mirrors hR body).finish (.leaving enclosing)

theorem execAll_mirrors (hR : Sink.Corresponds R) :
    (ss : List Statement) → Mirrors f R (execAll ss) (execAll (mapLinesAll f ss))
  | [] => .pure ()
  | s :: ss => by
    rw [mapLinesAll, execAll, execAll]
    exact (exec_mirrors hR s).bind fun _ => execAll_mirrors hR ss

end

theorem execAll_append (ss ts : List Statement) :
    (execAll (ss ++ ts) : Exec W Unit) = execAll ss >>= fun _ => execAll ts := by
  induction ss with
  | nil => rfl
  | cons s ss ih => rw [List.cons_append, execAll, execAll, ih, bind_assoc]

theorem execAll_singleton (s : Statement) : (execAll [s] : Exec W Unit) = exec s := by
  rw [execAll, execAll]
  exact bind_pure_unit

end Statement

structure Effect (W : Type) where
  result : Except Failure Unit
  environment : Environment
  output : W

namespace Effect

def of : EStateM.Result Failure (Machine W) Unit → Effect W
  | .ok _ m => ⟨.ok (), m.environment, m.output⟩
  | .error failure m => ⟨.error failure, m.environment, m.output⟩

def ofExec : EStateM.Result Abort (Machine W) Unit → Effect W
  | .ok _ m => ⟨.ok (), m.environment, m.output⟩
  | .error stop m => ⟨.error (.ofAbort stop), m.environment, m.output⟩

def mapLine (f : Nat → Nat) (x : Effect W) : Effect W :=
  { x with result := x.result.mapError (Failure.mapLine f) }

theorem mapLine_id (x : Effect W) : x.mapLine id = x := by
  obtain ⟨result, environment, output⟩ := x
  cases result with
  | ok => rfl
  | error failure => exact congrArg (fun x => Effect.mk (.error x) environment output) failure.mapLine_id

theorem ofExec_matches {f : Nat → Nat} {R : W → V → Prop} {r : EStateM.Result Abort (Machine W) Unit}
    {r' : EStateM.Result Abort (Machine V) Unit} (h : Matches (Abort.mapLine f) R r r') :
    (ofExec r').result = (ofExec r).result.mapError (Failure.mapLine f) ∧
      (ofExec r').environment = (ofExec r).environment ∧ R (ofExec r).output (ofExec r').output := by
  rcases h.cases with ⟨a, n, n', rfl, rfl, hn⟩ | ⟨e, n, n', rfl, rfl, hn⟩
  · exact ⟨rfl, hn.environment, hn.output⟩
  · cases e <;> exact ⟨rfl, hn.environment, hn.output⟩

section

variable [Sink W] {m m' : Machine W}

theorem execAll_mapLines (f : Nat → Nat) (ss : List Statement) (h : m.Alike Eq m') :
    ofExec (Statement.execAll (Statement.mapLinesAll f ss) m') =
      (ofExec (Statement.execAll ss m)).mapLine f := by
  have heq : Sink.Corresponds (Eq : W → W → Prop) := fun _ _ _ h => h ▸ ⟨rfl, rfl⟩
  obtain ⟨hr, he, ho⟩ := ofExec_matches (Statement.execAll_mirrors (f := f) heq ss m m' h)
  rw [mapLine, ← hr, ← he, ho]

theorem execAll_alike (ss : List Statement) (h : m.Alike Eq m') :
    ofExec (Statement.execAll ss m') = ofExec (Statement.execAll ss m) := by
  have hid := execAll_mapLines id ss h
  rwa [Statement.mapLinesAll_id, mapLine_id] at hid

theorem ofExec_interpret (ss : List Statement) (m : Machine W) :
    ofExec (Statement.interpret ss m) = ofExec (Statement.execAll ss m) := by
  rw [Statement.interpret]
  cases Statement.execAll ss m with
  | ok _ n => rfl
  | error stop n => cases stop <;> rfl

theorem of_start (ss : List Statement) (m : Machine W) :
    of (start ss m) = ofExec (Statement.execAll ss m) := by
  have hlog : m.Alike Eq { m with log := m.log.push (.running ss.length) } := ⟨rfl, rfl⟩
  rw [← execAll_alike ss hlog]
  simp only [start, Statement.interpret]
  cases Statement.execAll ss { m with log := m.log.push (.running ss.length) } with
  | ok _ n => rfl
  | error stop n => cases stop <;> rfl

theorem of_run (source : String) (m : Machine W) :
    of (run source m) =
      match (Program.ofSource source).accepted with
      | .ok ss => ofExec (Statement.execAll ss m)
      | .error ds => ⟨.error (.static ds), m.environment, m.output⟩ := by
  cases h : (Program.ofSource source).accepted with
  | ok ss =>
    have hlog : m.Alike Eq { m with log := m.log ++ (Program.ofSource source).records } := ⟨rfl, rfl⟩
    dsimp only
    rw [← execAll_alike ss hlog, ← of_start]
    simp only [run, load, Bind.bind, EStateM.bind, h]
  | error ds =>
    simp only [run, load, Bind.bind, EStateM.bind, h]
    rfl

end

end Effect

end Treewalk
