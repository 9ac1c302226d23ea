import Treewalk.Proofs.Execution.BoundedOutput
import Treewalk.Proofs.Execution.Calls
import Treewalk.Proofs.Grammar.Order

namespace Treewalk

open Machine

def Record.isScope : Record → Bool
  | .entered .. | .leaving .. => true
  | _ => false

inductive Balanced : (around : Nat) → List Record → Prop
  | nil {around : Nat} : Balanced around []
  | scope {around number depth : Nat} {inner others : List Record} (hnumber : number + 1 = depth)
      (hdepth : depth = 2 + around) (hinner : Balanced (around + 1) inner) (hothers : Balanced around others) :
      Balanced around (.entered number depth :: inner ++ .leaving number depth :: others)

theorem Balanced.append {around : Nat} {rs others : List Record} (h : Balanced around rs)
    (hothers : Balanced around others) : Balanced around (rs ++ others) := by
  induction h with
  | nil => exact hothers
  | scope hnumber hdepth hinner _ _ ih =>
    have happend := Balanced.scope hnumber hdepth hinner (ih hothers)
    simpa only [List.append_assoc, List.cons_append] using happend

namespace Place

def earlier : Place → List Statement
  | here before _ => before
  | inside before inner line _ => before ++ [.block inner.earlier line]

variable (p : Place) (s : Statement) (ss : List Statement)

theorem earlier_preceded : (p.preceded s).earlier = s :: p.earlier := by
  cases p <;> rfl

theorem earlier_followed : (p.followed ss).earlier = p.earlier := by
  cases p <;> rfl

end Place

namespace Statement

mutual

def brackets (around : Nat) : Statement → List Record
  | .block body _ =>
      .entered (around + 1) (around + 2) :: bracketsAll (around + 1) body ++ [.leaving (around + 1) (around + 2)]
  | _ => []

def bracketsAll (around : Nat) : List Statement → List Record
  | [] => []
  | s :: ss => brackets around s ++ bracketsAll around ss

end

mutual

theorem brackets_balanced (around : Nat) : (s : Statement) → Balanced around (s.brackets around)
  | .block body line => by
    rw [brackets]
    exact .scope rfl (Nat.add_comm around 2) (bracketsAll_balanced (around + 1) body) .nil
  | .expression .. | .print .. | .declare .. => by
    rw [brackets]
    · exact .nil
    · exact nofun

theorem bracketsAll_balanced (around : Nat) : (ss : List Statement) → Balanced around (bracketsAll around ss)
  | [] => by
    rw [bracketsAll]
    exact .nil
  | s :: ss => by
    rw [bracketsAll]
    exact (brackets_balanced around s).append (bracketsAll_balanced around ss)

end

theorem bracketsAll_singleton (around : Nat) (s : Statement) : bracketsAll around [s] = s.brackets around := by
  rw [bracketsAll, bracketsAll, List.append_nil]

theorem ofAttempt_records {a : Attempt} (h : a.records.filter Record.isScope = []) :
    (Parsed.ofAttempt a).records.filter Record.isScope = [] := by
  unfold Parsed.ofAttempt
  cases a.result <;> simp [List.filter_append, h, Record.isScope]

theorem parseMany_records {one : List Token → Parsed} (h : ∀ ts, (one ts).records.filter Record.isScope = [])
    (stop : TokenKind → Bool) (fuel : Nat) (ts : List Token) :
    (parseMany stop one fuel ts).records.filter Record.isScope = [] := by
  induction fuel generalizing ts with
  | zero => rfl
  | succ fuel ih =>
    cases hs : stop (Token.peek ts).kind with
    | true =>
      rw [parseMany_stop hs]
      rfl
    | false =>
      rw [parseMany_step hs]
      change List.filter _ (_ ++ _) = []
      rw [List.filter_append, h, ih]
      rfl

theorem attempt_records (g : Grammar) {inner : Option (List Token → Parsed)}
    (h : ∀ one ∈ inner, ∀ ts, (one ts).records.filter Record.isScope = []) (ts : List Token) :
    (attempt g inner ts).records.filter Record.isScope = [] := by
  have simple (p : TokenParser Statement) (us : List Token) :
      (Attempt.ofParser p us).records.filter Record.isScope = [] := by
    rw [Attempt.ofParser_records]
    rfl
  rcases attempt_cases g inner ts with ⟨_, _, -, -, heq⟩ | ⟨_, _, -, -, heq⟩ | ⟨l, us, -, -, heq⟩ | ⟨-, heq⟩
  · exact heq ▸ simple _ _
  · exact heq ▸ simple _ _
  · rw [heq]
    cases inner with
    | none => rfl
    | some one =>
      change List.filter _ (_ ++ (Attempt.ofParser _ _).records) = []
      rw [Attempt.ofParser_records, List.append_nil]
      exact parseMany_records (h one rfl) ..
  · exact heq ▸ simple _ _

theorem parseOne_records (room : Nat) (ts : List Token) :
    (parseOne room ts).records.filter Record.isScope = [] := by
  induction room generalizing ts with
  | zero =>
    rw [parseOne_eq]
    refine ofAttempt_records (attempt_records _ ?_ ts)
    rintro one ⟨⟩
  | succ room ih =>
    rw [parseOne_eq]
    refine ofAttempt_records (attempt_records _ ?_ ts)
    rintro one ⟨⟩
    exact ih

end Statement

theorem Program.records_ofSource (source : String) :
    (ofSource source).records.filter Record.isScope = [] := by
  have hreported (ds : List Diagnostic) : (ds.map Record.reported).filter Record.isScope = [] := by
    rw [List.filter_map, List.map_eq_nil_iff]
    exact List.filter_eq_nil_iff.mpr fun _ _ => Bool.false_ne_true
  have hparsed : (Statement.parse (scan source).tokens).records.filter Record.isScope = [] :=
    Statement.parseMany_records (Statement.parseOne_records _) ..
  simp only [ofSource, Scanned.records, Statement.Parsed.allRecords, List.filter_append, hreported, hparsed]
  rfl

section Tells

variable {W α β : Type} {m n k : Machine W} {rs ss : List Record}

structure Tells (rs : List Record) (m n : Machine W) : Prop where
  chained : n.environment.Chained
  current : n.environment.current = m.environment.current
  told : ∃ told, n.log.toList = m.log.toList ++ told ∧ told.filter Record.isScope = rs

theorem Tells.trans (h : Tells rs m n) (h' : Tells ss n k) : Tells (rs ++ ss) m k where
  chained := h'.chained
  current := h'.current.trans h.current
  told := by
    obtain ⟨told, hlog, hfilter⟩ := h.told
    obtain ⟨told', hlog', hfilter'⟩ := h'.told
    refine ⟨told ++ told', ?_, ?_⟩
    · rw [hlog', hlog, List.append_assoc]
    · rw [List.filter_append, hfilter, hfilter']

theorem Tells.nothing (h : n.environment.Chained) (hcurrent : n.environment.current = m.environment.current)
    (hlog : n.log = m.log) : Tells [] m n where
  chained := h
  current := hcurrent
  told := ⟨[], by rw [hlog, List.append_nil], rfl⟩

def Machine.final {ε : Type} : EStateM.Result ε (Machine W) α → Machine W
  | .ok _ m => m
  | .error _ m => m

def Quiet (act : Exec W α) : Prop :=
  ∀ m : Machine W, m.environment.Chained → Tells [] m (final (act m))

namespace Quiet

theorem pure (a : α) : Quiet (pure a : Exec W α) :=
  fun _ hm => .nothing hm rfl rfl

theorem bind {act : Exec W α} {next : α → Exec W β} (h : Quiet act) (hnext : ∀ a, Quiet (next a)) :
    Quiet (act >>= next) := by
  intro m hm
  have htells := h m hm
  simp only [Bind.bind, EStateM.bind]
  cases hact : act m with
  | ok a n =>
    rw [hact] at htells
    exact htells.trans (hnext a n htells.chained)
  | error stop n =>
    rw [hact] at htells
    exact htells

theorem tell {r : Record} (h : r.isScope = false) : Quiet (tell r : Exec W Unit) := by
  intro m hm
  refine ⟨hm, rfl, [r], Array.toList_push, ?_⟩
  rw [List.filter_cons, h]
  rfl

theorem printLine [Sink W] (text : String) (line : Nat) : Quiet (printLine text line : Exec W Unit) := by
  intro m hm
  unfold Machine.printLine
  obtain ⟨output, _ | reason⟩ := Sink.write m.output (text ++ "\n").toUTF8
  · exact .nothing hm rfl rfl
  · exact .nothing hm rfl rfl

-- What acts on the variables only has no way to tell of anything.
theorem acting {act : EStateM Abort Environment α} (h : Keeps (onEnvironment act : Exec W α) fun _ => []) :
    Quiet (onEnvironment act : Exec W α) := by
  intro m hm
  have hkept := h m hm
  unfold onEnvironment at hkept ⊢
  cases hact : act m.environment with
  | ok a env =>
    rw [hact] at hkept
    obtain ⟨hchained, hsame⟩ := hkept
    exact .nothing hchained (congrArg ScopeId.mk (ScopeId.below_inj hsame)) rfl
  | error stop env =>
    rw [hact] at hkept
    obtain ⟨hchained, hsame, -⟩ := hkept
    exact .nothing hchained (congrArg ScopeId.mk (ScopeId.below_inj hsame)) rfl

theorem declaring (name : String) (line : Nat) (v : Value) : Quiet (declaring name line v : Exec W Unit) := by
  intro m hm
  rw [declaring_apply, hm.define_eq]
  exact ⟨hm.bindIn .., rfl, _, Array.toList_push, rfl⟩

end Quiet

namespace Machine

def entered (m : Machine W) : Machine W :=
  ⟨m.environment.push, m.output,
    m.log.push (.entered (m.environment.current.index + 1) (m.environment.current.index + 2))⟩

def left (enclosing : ScopeId) (m : Machine W) : Machine W :=
  ⟨m.environment.pop enclosing, m.output,
    m.log.push (.leaving m.environment.current.index (m.environment.current.index + 1))⟩

theorem entering_eq (h : m.environment.Chained) : entering m = .ok m.environment.current m.entered := by
  simp only [entering, onEnvironment, bind, EStateM.bind, h.enter_eq, ← h.push.last, entered]
  have hnew : m.environment.push.current.index = m.environment.current.index + 1 := h.last.symm
  rw [hnew]
  rfl

theorem leaving_eq (h : m.environment.Chained) (enclosing : ScopeId) :
    leaving enclosing m = .ok () (m.left enclosing) := by
  simp only [leaving, onEnvironment, bind, EStateM.bind, h.leave_eq, ← h.last, left]
  rfl

theorem inNewScope_eq_left (hm : m.environment.Chained) {act : Exec W Unit}
    (hact : (final (act m.entered)).environment.Chained) :
    inNewScope act m =
      match act m.entered with
      | .ok _ n => .ok () (n.left m.environment.current)
      | .error stop n => .error stop (n.left m.environment.current) := by
  simp only [inNewScope_eq, bind, EStateM.bind, entering_eq hm, tryFinally, tryFinally', Functor.map, EStateM.map]
  cases hn : act m.entered with
  | ok _ n | error _ n =>
    rw [hn] at hact
    have hleaving := leaving_eq hact m.environment.current
    dsimp only [final] at hleaving
    simp only [hleaving]

end Machine

theorem Tells.block (hm : m.environment.Chained) (h : Tells rs m.entered n) :
    Tells (.entered (m.environment.current.index + 1) (m.environment.current.index + 2) :: rs ++
      [.leaving (m.environment.current.index + 1) (m.environment.current.index + 2)]) m
      (n.left m.environment.current) where
  chained := by
    refine h.chained.pop ?_
    rw [← h.chained.last, h.current]
    exact congrArg (· + 1) hm.last
  current := rfl
  told := by
    obtain ⟨told, hlog, rfl⟩ := h.told
    have hindex : n.environment.current.index = m.environment.current.index + 1 := by
      rw [h.current]
      exact hm.last.symm
    refine ⟨.entered (m.environment.current.index + 1) (m.environment.current.index + 2) :: told ++
      [.leaving (m.environment.current.index + 1) (m.environment.current.index + 2)], ?_, ?_⟩
    · rw [left, Array.toList_push, hlog, entered, Array.toList_push, hindex, List.append_assoc, List.append_assoc]
      rfl
    · rw [List.filter_append]
      rfl

end Tells

namespace Statement

variable {W : Type} [Sink W]

def Runs (ss : List Statement) (m : Machine W) : Prop :=
  (Effect.ofExec (execAll ss m)).result = .ok ()

def StopsAfter (m : Machine W) (ss part : List Statement) : Prop :=
  ∃ (place : Place) (s : Statement), ss = place.fill s ∧ (∀ body line, s ≠ .block body line) ∧
    part = place.earlier ∧ Runs part m ∧ ¬ Runs (place.upTo s) m

variable {m k : Machine W} {s : Statement} {ss part : List Statement}

theorem runs_nil (m : Machine W) : Runs [] m :=
  rfl

theorem runs_of_ok (h : execAll ss m = .ok () k) : Runs ss m := by
  rw [Runs, h]
  rfl

theorem not_runs_of_error {stop : Abort} (h : execAll ss m = .error stop k) : ¬ Runs ss m := by
  rw [Runs, h]
  exact nofun

theorem runs_cons (h : s.exec m = .ok () k) : Runs (s :: ss) m ↔ Runs ss k := by
  simp only [Runs, execAll, bind, EStateM.bind, h]

theorem runs_block (hm : m.environment.Chained) (body : List Statement) (line : Nat) :
    Runs [.block body line] m ↔ Runs body m.entered := by
  have hblock : execAll [.block body line] m = inNewScope (execAll body) m := by
    rw [execAll_singleton, exec]
  cases hbody : execAll body m.entered with
  | ok _ n =>
    have hroot := (rooted_of_entering (entering_eq hm)).of_shape (execAll_firm body _ _ _ hbody)
    obtain ⟨log, hscope⟩ := inNewScope_ok (entering_eq hm) hbody hroot
    exact iff_of_true (runs_of_ok (hblock.trans hscope)) (runs_of_ok hbody)
  | error stop n =>
    refine iff_of_false ?_ (not_runs_of_error hbody)
    simp only [inNewScope_eq, bind, EStateM.bind, entering_eq hm, tryFinally, tryFinally', Functor.map, EStateM.map,
      hbody] at hblock
    cases hleaving : leaving m.environment.current n <;> rw [hleaving] at hblock <;> exact not_runs_of_error hblock

theorem runs_alike (h : m.Alike Eq k) : Runs ss k ↔ Runs ss m := by
  rw [Runs, Runs, Effect.execAll_alike ss h]

namespace StopsAfter

theorem preceded (h : StopsAfter k ss part) (hs : s.exec m = .ok () k) :
    StopsAfter m (s :: ss) (s :: part) := by
  obtain ⟨place, t, rfl, ht, rfl, hruns, hstops⟩ := h
  refine ⟨place.preceded s, t, (place.fill_preceded ..).symm, ht, (place.earlier_preceded ..).symm,
    (runs_cons hs).mpr hruns, ?_⟩
  rwa [Place.upTo_preceded, runs_cons hs]

theorem followed (h : StopsAfter m [s] part) (ss : List Statement) : StopsAfter m (s :: ss) part := by
  obtain ⟨place, t, hfill, ht, rfl, hruns, hstops⟩ := h
  refine ⟨place.followed ss, t, ?_, ht, (place.earlier_followed ..).symm, hruns, ?_⟩
  · rw [Place.fill_followed, ← hfill, List.singleton_append]
  · rwa [Place.upTo_followed]

theorem inside (h : StopsAfter m.entered ss part) (hm : m.environment.Chained) (line : Nat) :
    StopsAfter m [.block ss line] [.block part line] := by
  obtain ⟨place, t, rfl, ht, rfl, hruns, hstops⟩ := h
  refine ⟨.inside [] place line [], t, rfl, ht, rfl, (runs_block hm ..).mpr hruns, ?_⟩
  rwa [Place.upTo, List.nil_append, runs_block hm]

theorem alike (h : StopsAfter k ss part) (halike : m.Alike Eq k) : StopsAfter m ss part := by
  obtain ⟨place, t, hfill, ht, hpart, hruns, hstops⟩ := h
  refine ⟨place, t, hfill, ht, hpart, (runs_alike halike).mp hruns, ?_⟩
  rwa [← runs_alike halike]

end StopsAfter

def Recorded (ss : List Statement) (m : Machine W) : Prop :=
  match execAll ss m with
  | .ok _ n => Tells (bracketsAll m.environment.current.index ss) m n
  | .error _ n => ∃ part, StopsAfter m ss part ∧ Tells (bracketsAll m.environment.current.index part) m n

namespace Recorded

theorem of_quiet (hm : m.environment.Chained) (h : Quiet (s.exec : Exec W Unit))
    (hs : ∀ body line, s ≠ .block body line) : Recorded [s] m := by
  have htells := h m hm
  unfold Recorded
  have hall : execAll [s] m = s.exec m := congrFun (execAll_singleton s) m
  cases hexec : s.exec m with
  | ok _ n =>
    rw [hexec] at htells
    rw [hall, hexec, bracketsAll_singleton, brackets]
    · exact htells
    · exact hs
  | error stop n =>
    rw [hexec] at htells hall
    rw [hall]
    exact ⟨[], ⟨.here [] [], s, rfl, hs, rfl, runs_nil m, not_runs_of_error hall⟩, htells⟩

theorem block (hm : m.environment.Chained) (h : Recorded ss m.entered) (line : Nat) :
    Recorded [.block ss line] m := by
  have hindex : m.entered.environment.current.index = m.environment.current.index + 1 := hm.last.symm
  unfold Recorded at h ⊢
  rw [execAll_singleton, exec]
  rw [hindex] at h
  cases hexec : execAll ss m.entered with
  | ok _ n =>
    rw [hexec] at h
    have htells := h.block hm
    rw [inNewScope_eq_left hm (by rw [hexec]; exact h.chained), hexec, bracketsAll_singleton, brackets]
    exact htells
  | error stop n =>
    rw [hexec] at h
    obtain ⟨part, hstops, htells⟩ := h
    rw [inNewScope_eq_left hm (by rw [hexec]; exact htells.chained), hexec]
    refine ⟨[.block part line], hstops.inside hm line, ?_⟩
    rw [bracketsAll_singleton, brackets]
    exact htells.block hm

theorem cons (h : Recorded [s] m) (hothers : ∀ n : Machine W, n.environment.Chained → Recorded ss n) :
    Recorded (s :: ss) m := by
  unfold Recorded at h ⊢
  rw [execAll_singleton] at h
  simp only [execAll, bind, EStateM.bind]
  cases hexec : s.exec m with
  | ok _ n =>
    rw [hexec] at h
    have hrest := hothers n h.chained
    unfold Recorded at hrest
    rw [h.current] at hrest
    dsimp only
    cases hall : execAll ss n with
    | ok _ k =>
      rw [hall] at hrest
      rw [bracketsAll, ← bracketsAll_singleton]
      exact h.trans hrest
    | error stop k =>
      rw [hall] at hrest
      obtain ⟨part, hstops, htells⟩ := hrest
      refine ⟨s :: part, hstops.preceded hexec, ?_⟩
      rw [bracketsAll, ← bracketsAll_singleton]
      exact h.trans htells
  | error stop n =>
    rw [hexec] at h
    obtain ⟨part, hstops, htells⟩ := h
    exact ⟨part, hstops.followed ss, htells⟩

end Recorded

mutual

theorem exec_recorded : (s : Statement) → (m : Machine W) → m.environment.Chained → Recorded [s] m
  | .expression e line, m, hm => by
    refine .of_quiet hm ?_ nofun
    rw [exec]
    exact (Quiet.tell rfl).bind fun _ => (Quiet.acting (.eval e)).bind fun _ => .pure ()
  | .print e line, m, hm => by
    refine .of_quiet hm ?_ nofun
    rw [exec]
    exact (Quiet.acting (.eval e)).bind fun v => .printLine v.text line
  | .declare name none line, m, hm => by
    refine .of_quiet hm ?_ nofun
    rw [exec]
    exact (Quiet.pure Value.nil).bind fun v => .declaring name line v
  | .declare name (some e) line, m, hm => by
    refine .of_quiet hm ?_ nofun
    rw [exec]
    exact (Quiet.acting (.eval e)).bind fun v => .declaring name line v
  | .block body line, m, hm => .block hm (execAll_recorded body m.entered hm.push) line

theorem execAll_recorded : (ss : List Statement) → (m : Machine W) → m.environment.Chained → Recorded ss m
  | [], _, hm => .nothing hm rfl rfl
  | s :: ss, m, hm => (exec_recorded s m hm).cons (execAll_recorded ss)

end

theorem tells_interpret (hm : m.environment.Chained) (ss : List Statement) :
    ∃ part, (Runs ss m ∧ part = ss ∨ StopsAfter m ss part) ∧
      Tells (bracketsAll m.environment.current.index part) m (final (interpret ss m)) := by
  have hrecorded := execAll_recorded ss m hm
  unfold Recorded at hrecorded
  unfold interpret
  cases hall : execAll ss m with
  | ok _ n =>
    rw [hall] at hrecorded
    exact ⟨ss, .inl ⟨runs_of_ok hall, rfl⟩, hrecorded⟩
  | error stop n =>
    rw [hall] at hrecorded
    obtain ⟨part, hstops, htells⟩ := hrecorded
    refine ⟨part, .inr hstops, ?_⟩
    cases stop with
    | fault f => exact htells
    | error e =>
      have hfailed := htells.trans (Quiet.tell (r := .failed e) rfl n htells.chained)
      rwa [List.append_nil] at hfailed

end Statement

namespace Call

variable {W : Type} {m : Machine W}

theorem final_reported {α : Type} (act : Exec W α) (m : Machine W) : final (reported act m) = final (act m) := by
  unfold reported
  cases act m <;> rfl

def loaded (source : String) (m : Machine W) : Machine W :=
  { m with log := m.log ++ (Program.ofSource source).records }

def started (source : String) (m : Machine W) (ss : List Statement) : Machine W :=
  final (Machine.tell (.running ss.length) (loaded source m))

theorem tells_loaded (hm : m.environment.Chained) (source : String) : Tells [] m (loaded source m) :=
  ⟨hm, rfl, _, Array.toList_appendList, Program.records_ofSource source⟩

theorem tells_started (hm : m.environment.Chained) (source : String) (ss : List Statement) :
    Tells [] m (started source m ss) :=
  (tells_loaded hm source).trans (Quiet.tell rfl _ hm)

-- By computation: unification alone would compare the records, and scan the source for them.
theorem alike_started (source : String) (m : Machine W) (ss : List Statement) : m.Alike Eq (started source m ss) := by
  constructor <;> simp only [started, loaded, Machine.tell, final]

variable [Sink W]

theorem after_eq_final (call : Call) (m : Machine W) : call.after m = final (call.perform m) := by
  unfold after
  cases call.perform m <;> rfl

theorem after_run_refused {source : String} {ds : List Diagnostic}
    (h : (Program.ofSource source).accepted = .error ds) : (run source).after m = loaded source m := by
  rw [after_eq_final]
  simp only [perform, Machine.run, load, bind, EStateM.bind, h]
  rfl

theorem after_run_accepted {source : String} {ss : List Statement}
    (h : (Program.ofSource source).accepted = .ok ss) :
    (run source).after m = final (Statement.interpret ss (started source m ss)) := by
  rw [after_eq_final, ← final_reported]
  simp only [perform, Machine.run, load, bind, EStateM.bind, h, machine_start_eq]
  rfl

theorem scope_records_balanced (output : W) (calls : List Call) (source : String) :
    let m := session output calls
    ∃ told, ((run source).after m).log.toList = m.log.toList ++ told ∧
      Balanced 0 (told.filter Record.isScope) ∧
      match (Program.ofSource source).accepted with
      | .error _ => told.filter Record.isScope = []
      | .ok ss => ∃ part, (Statement.Runs ss m ∧ part = ss ∨ Statement.StopsAfter m ss part) ∧
          told.filter Record.isScope = Statement.bracketsAll 0 part := by
  intro m
  have hrest : AtRest m := .session output calls
  have houtermost : m.environment.current.index = 0 := congrArg ScopeId.index hrest.current
  cases haccepted : (Program.ofSource source).accepted with
  | error ds =>
    rw [after_run_refused haccepted]
    obtain ⟨told, hlog, hfilter⟩ := (tells_loaded hrest.chained source).told
    refine ⟨told, hlog, ?_, hfilter⟩
    rw [hfilter]
    exact .nil
  | ok ss =>
    rw [after_run_accepted haccepted]
    have hstarted := tells_started hrest.chained source ss
    obtain ⟨part, hpart, htells⟩ := Statement.tells_interpret hstarted.chained ss
    obtain ⟨told, hlog, hfilter⟩ := (hstarted.trans htells).told
    rw [hstarted.current, houtermost, List.nil_append] at hfilter
    refine ⟨told, hlog, ?_, part, ?_, hfilter⟩
    · rw [hfilter]
      exact Statement.bracketsAll_balanced 0 part
    -- The statements start with more records than `m` has, and do what they do from `m`.
    · have halike := alike_started source m ss
      obtain ⟨hruns, hwhole⟩ | hstops := hpart
      · exact .inl ⟨(Statement.runs_alike halike).mp hruns, hwhole⟩
      · exact .inr (hstops.alike halike)

example : (((run "{ var a; { print a; } { print b; } }").after (.new ByteArray.empty)).log.toList.filter
    Record.isScope).map Record.message =
      ["entered scope 1 (depth 2)", "entered scope 2 (depth 3)", "leaving scope 2 (depth 3)",
        "entered scope 2 (depth 3)", "leaving scope 2 (depth 3)", "leaving scope 1 (depth 2)"] := by
  decide +kernel

end Call

end Treewalk
