import Treewalk.Proofs.Execution.Blocks
import Treewalk.Proofs.Sessions

namespace Treewalk

open Machine

inductive Place where
  | here (before after : List Statement)
  | inside (before : List Statement) (inner : Place) (line : Nat) (after : List Statement)

namespace Place

def fill (s : Statement) : Place → List Statement
  | here before after => before ++ s :: after
  | inside before inner line after => before ++ .block (inner.fill s) line :: after

def upTo (s : Statement) : Place → List Statement
  | here before _ => before ++ [s]
  | inside before inner line _ => before ++ [.block (inner.upTo s) line]

def preceded (s : Statement) : Place → Place
  | here before after => here (s :: before) after
  | inside before inner line after => inside (s :: before) inner line after

def followed (ss : List Statement) : Place → Place
  | here before after => here before (after ++ ss)
  | inside before inner line after => inside before inner line (after ++ ss)

variable (p : Place) (s t : Statement) (ss : List Statement)

theorem fill_preceded : (p.preceded s).fill t = s :: p.fill t := by
  cases p <;> rfl

theorem upTo_preceded : (p.preceded s).upTo t = s :: p.upTo t := by
  cases p <;> rfl

theorem fill_followed : (p.followed ss).fill t = p.fill t ++ ss := by
  cases p <;> simp [followed, fill]

theorem upTo_followed : (p.followed ss).upTo t = p.upTo t := by
  cases p <;> rfl

end Place

section Extends

def Extends (o o' : ByteArray) : Prop :=
  ∃ more, o' = o ++ more

variable {o o' : ByteArray}

theorem Extends.size_le (h : Extends o o') : o.size ≤ o'.size := by
  obtain ⟨more, rfl⟩ := h
  rw [ByteArray.size_append]
  exact Nat.le_add_right ..

theorem Extends.extract (h : Extends o o') {i : Nat} (hi : i ≤ o.size) : o'.extract 0 i = o.extract 0 i := by
  obtain ⟨more, rfl⟩ := h
  rw [ByteArray.extract_append, Nat.zero_sub, Nat.sub_eq_zero_of_le hi, ByteArray.extract_same,
    ByteArray.append_empty]

theorem Extends.bind_execAll {act : Exec ByteArray Unit} {m : Machine ByteArray}
    (h : Extends o (Effect.ofExec (act m)).output) (ss : List Statement) :
    Extends o (Effect.ofExec ((act >>= fun _ => Statement.execAll ss) m)).output := by
  simp only [bind, EStateM.bind]
  cases hact : act m with
  | ok _ n =>
    rw [hact] at h
    obtain ⟨more, hn : n.output = o ++ more⟩ := h
    have honto := congrArg Effect.output (Effect.execAll_onto ss n.environment n.output n.log)
    exact ⟨more ++ _, by rw [← ByteArray.append_assoc, ← hn]; exact honto⟩
  | error stop n =>
    rw [hact] at h
    exact h

theorem output_leaving (enclosing : ScopeId) (m : Machine ByteArray) :
    (Effect.ofExec (leaving enclosing m)).output = m.output := by
  simp only [leaving, onEnvironment, bind, EStateM.bind]
  cases Environment.leave enclosing m.environment <;> rfl

theorem output_inNewScope {act : Exec ByteArray Unit} {m n : Machine ByteArray} {enclosing : ScopeId}
    (h : entering m = .ok enclosing n) :
    (Effect.ofExec (inNewScope act m)).output = (Effect.ofExec (act n)).output := by
  simp only [inNewScope_eq, bind, EStateM.bind, h, tryFinally, tryFinally', Functor.map, EStateM.map]
  cases act n with
  | ok _ k | error _ k =>
    have hleaving := output_leaving enclosing k
    dsimp only
    revert hleaving
    cases leaving enclosing k <;> exact id

end Extends

section Write

variable {n : Nat} {reason : String} {o : ByteArray} {b : BoundedSink}

def Within (n : Nat) (reason : String) (o : ByteArray) (b : BoundedSink) : Prop :=
  o.size ≤ n ∧ b = ⟨o, n - o.size, reason⟩

theorem Within.write (h : Within n reason o b) {bytes : ByteArray} (hfit : (o ++ bytes).size ≤ n) :
    Within n reason (o ++ bytes) (Sink.write b bytes).1 ∧ (Sink.write b bytes).2 = none := by
  obtain ⟨-, rfl⟩ := h
  have hroom : bytes.size ≤ n - o.size := by
    rw [ByteArray.size_append] at hfit
    exact Nat.le_sub_of_add_le' hfit
  refine ⟨⟨hfit, ?_⟩, if_pos hroom⟩
  have htaken : bytes.extract 0 (n - o.size) = bytes := by
    rw [← Nat.max_eq_left hroom, ByteArray.extract_zero_max_size]
  simp only [Sink.write, BoundedSink.write, htaken, ByteArray.size_append, Nat.sub_sub]

theorem Within.write_beyond (h : Within n reason o b) {bytes : ByteArray} (hbeyond : n < (o ++ bytes).size) :
    (Sink.write b bytes).1.taken = (o ++ bytes).extract 0 n ∧ (Sink.write b bytes).2 = some reason := by
  obtain ⟨hle, rfl⟩ := h
  have hroom : ¬ bytes.size ≤ n - o.size := by
    rw [ByteArray.size_append] at hbeyond
    omega
  refine ⟨?_, if_neg hroom⟩
  rw [ByteArray.extract_append, ← Nat.max_eq_left hle, ByteArray.extract_zero_max_size, Nat.max_eq_left hle,
    Nat.zero_sub]
  rfl

end Write

structure Cut (n : Nat) (before after : Machine ByteArray) (stopped : Machine BoundedSink) : Prop where
  printed : ∃ v : Value, after.output = before.output ++ (v.text ++ "\n").toUTF8
  fits : before.output.size ≤ n
  beyond : n < after.output.size
  taken : stopped.output.taken = after.output.extract 0 n
  environment : stopped.environment = before.environment

-- `before` has evaluated what is printed and not printed it: that is all the stopped run has done.
def Overflows (n : Nat) (reason : String) (ss : List Statement) (m : Machine ByteArray)
    (r : EStateM.Result Abort (Machine BoundedSink) Unit) : Prop :=
  ∃ (place : Place) (e : Expr) (line : Nat) (before after : Machine ByteArray) (stopped : Machine BoundedSink),
    ss = place.fill (.print e line) ∧
    Statement.execAll (place.upTo (.expression e line)) m = .ok () before ∧
    Statement.execAll (place.upTo (.print e line)) m = .ok () after ∧
    Extends after.output (Effect.ofExec (Statement.execAll ss m)).output ∧
    r = .error (.error ⟨.output reason, line⟩) stopped ∧ Cut n before after stopped

namespace Overflows

variable {n : Nat} {reason : String} {s : Statement} {ss : List Statement} {m : Machine ByteArray}
  {r : EStateM.Result Abort (Machine BoundedSink) Unit}

theorem stops (h : Overflows n reason ss m r) : ∃ stop stopped, r = .error stop stopped := by
  obtain ⟨_, _, _, _, _, stopped, -, -, -, -, hr, -⟩ := h
  exact ⟨_, stopped, hr⟩

theorem preceded {k : Machine ByteArray} (h : Overflows n reason ss k r) (hs : s.exec m = .ok () k) :
    Overflows n reason (s :: ss) m r := by
  obtain ⟨place, e, line, before, after, stopped, rfl, hbefore, hafter, hextends, hr, hcut⟩ := h
  have hcons (ts : List Statement) : Statement.execAll (s :: ts) m = Statement.execAll ts k := by
    simp only [Statement.execAll, bind, EStateM.bind, hs]
  refine ⟨place.preceded s, e, line, before, after, stopped, (place.fill_preceded ..).symm, ?_, ?_, ?_, hr, hcut⟩
  · rw [Place.upTo_preceded, hcons, hbefore]
  · rw [Place.upTo_preceded, hcons, hafter]
  · rwa [hcons]

theorem followed (h : Overflows n reason [s] m r) (ss : List Statement) : Overflows n reason (s :: ss) m r := by
  obtain ⟨place, e, line, before, after, stopped, hfill, hbefore, hafter, hextends, hr, hcut⟩ := h
  refine ⟨place.followed ss, e, line, before, after, stopped, ?_, ?_, ?_, ?_, hr, hcut⟩
  · rw [Place.fill_followed, ← hfill, List.singleton_append]
  · rw [Place.upTo_followed, hbefore]
  · rw [Place.upTo_followed, hafter]
  · rw [Statement.execAll]
    rw [Statement.execAll_singleton] at hextends
    exact hextends.bind_execAll ss

theorem inside {m' k' : Machine BoundedSink} {k : Machine ByteArray} {enclosing : ScopeId}
    (h : Overflows n reason ss k (Statement.execAll ss k')) (line : Nat) (hentering : entering m = .ok enclosing k)
    (hentering' : entering m' = .ok enclosing k') :
    Overflows n reason [.block ss line] m (inNewScope (Statement.execAll ss) m') := by
  obtain ⟨place, e, line', before, after, stopped, rfl, hbefore, hafter, hextends, hr, hcut⟩ := h
  -- All three runs end in an environment of the shape they began in, so each of them can leave the block.
  have hroot := rooted_of_entering hentering
  have hbefore_root := hroot.of_shape (Statement.execAll_firm _ _ _ _ hbefore)
  have hafter_root := hroot.of_shape (Statement.execAll_firm _ _ _ _ hafter)
  obtain ⟨_, hbefore⟩ := inNewScope_ok hentering hbefore hbefore_root
  obtain ⟨_, hafter⟩ := inNewScope_ok hentering hafter hafter_root
  obtain ⟨_, hstopped⟩ := inNewScope_stopped hentering' hr (hcut.environment ▸ hbefore_root)
  have hblock (body : List Statement) :
      (Statement.execAll [.block body line] : Exec ByteArray Unit) = inNewScope (Statement.execAll body) := by
    rw [Statement.execAll_singleton, Statement.exec]
  refine ⟨.inside [] place line [], e, line', _, _, _, rfl, (congrFun (hblock _) m).trans hbefore,
    (congrFun (hblock _) m).trans hafter, ?_, hstopped, ?_⟩
  · rwa [hblock, output_inNewScope hentering]
  · exact ⟨hcut.printed, hcut.fits, hcut.beyond, hcut.taken, congrArg (Environment.pop · _) hcut.environment⟩

end Overflows

section

variable {W : Type} [Sink W] {m : Machine W} {text : String} {line : Nat}

theorem printLine_ok (h : (Sink.write m.output (text ++ "\n").toUTF8).2 = none) :
    printLine text line m = .ok () { m with output := (Sink.write m.output (text ++ "\n").toUTF8).1 } := by
  rw [printLine]
  split <;> simp_all

theorem printLine_error {reason : String} (h : (Sink.write m.output (text ++ "\n").toUTF8).2 = some reason) :
    printLine text line m = .error (.error ⟨.output reason, line⟩)
      { m with output := (Sink.write m.output (text ++ "\n").toUTF8).1 } := by
  rw [printLine]
  split <;> simp_all

end

namespace Statement

variable {n : Nat} {reason : String} {m : Machine ByteArray} {m' : Machine BoundedSink}

theorem exec_expression_of_ok {e : Expr} {v : Value} {k : Machine ByteArray} (h : onEnvironment e.eval m = .ok v k)
    (line : Nat) : ∃ log, exec (.expression e line) m = .ok () ⟨k.environment, k.output, log⟩ := by
  have hlog : m.Alike Eq { m with log := m.log.push (.evaluating line) } := ⟨rfl, rfl⟩
  have hmatches := Mirrors.acting e.eval _ _ hlog
  rw [h] at hmatches
  rcases hmatches.cases with ⟨_, _, k', heq, hk, halike⟩ | ⟨_, _, _, heq, _⟩
  · cases heq
    refine ⟨k'.log, ?_⟩
    rw [exec, halike.output, ← halike.environment]
    simp only [bind, EStateM.bind, Machine.tell, hk]
    rfl
  · cases heq

theorem exec_print_bounded (e : Expr) (line : Nat) (h : m.Alike (Within n reason) m') :
    Matches (Abort.mapLine id) (Within n reason) (exec (.print e line) m) (exec (.print e line) m') ∨
      Overflows n reason [.print e line] m (exec (.print e line) m') := by
  rcases (Mirrors.acting e.eval m m' h).cases with ⟨v, k, k', hk, hk', halike⟩ | ⟨stop, k, k', hk, hk', halike⟩
  · have hexec : exec (.print e line) m = printLine v.text line k := by
      simp only [exec, bind, EStateM.bind, hk]
    have hexec' : exec (.print e line) m' = printLine v.text line k' := by
      simp only [exec, bind, EStateM.bind, hk']
    rw [hexec, hexec']
    -- Both runs hand over the same bytes; only here can they part.
    obtain hfit | hbeyond := le_or_gt (k.output ++ (v.text ++ "\n").toUTF8).size n
    · left
      obtain ⟨hwithin, hnone⟩ := halike.output.write hfit
      rw [printLine_ok hnone]
      exact .ok ⟨halike.environment, hwithin⟩
    · right
      obtain ⟨htaken, hsome⟩ := halike.output.write_beyond hbeyond
      obtain ⟨log, hexpression⟩ := exec_expression_of_ok hk line
      refine ⟨.here [] [], e, line, _, _, _, rfl, (congrFun (execAll_singleton _) m).trans hexpression,
        (congrFun (execAll_singleton _) m).trans hexec, ?_, printLine_error hsome, ?_⟩
      · rw [execAll_singleton, hexec]
        exact ⟨.empty, ByteArray.append_empty.symm⟩
      · exact ⟨⟨v, rfl⟩, halike.output.1, hbeyond, htaken, halike.environment⟩
  · left
    simp only [exec, bind, EStateM.bind, hk, hk']
    exact .error halike

mutual

theorem exec_bounded : (s : Statement) → (m : Machine ByteArray) → (m' : Machine BoundedSink) →
    m.Alike (Within n reason) m' →
    Matches (Abort.mapLine id) (Within n reason) (exec s m) (exec s m') ∨ Overflows n reason [s] m (exec s m')
  | .expression e line, m, m', h => by
    rw [exec, exec]
    exact .inl (((Mirrors.tell _ _).bind fun _ => (Mirrors.acting e.eval).bind fun _ => .pure ()) m m' h)
  | .print e line, _, _, h => exec_print_bounded e line h
  | .declare name none line, m, m', h => by
    rw [exec, exec]
    exact .inl (((Mirrors.pure Value.nil).bind fun v => .declaring name line line v) m m' h)
  | .declare name (some e) line, m, m', h => by
    rw [exec, exec]
    exact .inl (((Mirrors.acting e.eval).bind fun v => .declaring name line line v) m m' h)
  | .block body line, m, m', h => by
    rw [exec, exec]
    rcases (Mirrors.entering (f := id) m m' h).cases with ⟨_, k, k', hk, hk', halike⟩ | ⟨_, k, k', hk, hk', halike⟩
    · rcases execAll_bounded body k k' halike with hbody | hbody
      · left
        simp only [inNewScope_eq, bind, EStateM.bind, hk, hk']
        exact Mirrors.finish_at hbody (.leaving _)
      · exact .inr (hbody.inside line hk hk')
    · left
      rw [inNewScope_of_error hk, inNewScope_of_error hk']
      exact .error halike

theorem execAll_bounded : (ss : List Statement) → (m : Machine ByteArray) → (m' : Machine BoundedSink) →
    m.Alike (Within n reason) m' →
    Matches (Abort.mapLine id) (Within n reason) (execAll ss m) (execAll ss m') ∨
      Overflows n reason ss m (execAll ss m')
  | [], _, _, h => .inl (.ok h)
  | s :: ss, m, m', h => by
    rcases exec_bounded s m m' h with hs | hs
    · rcases hs.cases with ⟨_, k, k', hk, hk', halike⟩ | ⟨stop, k, k', hk, hk', halike⟩
      · simp only [execAll, bind, EStateM.bind, hk, hk']
        exact (execAll_bounded ss k k' halike).imp_right (·.preceded hk)
      · left
        simp only [execAll, bind, EStateM.bind, hk, hk']
        exact .error halike
    · right
      obtain ⟨stop, stopped, hstopped⟩ := hs.stops
      have hall : execAll (s :: ss) m' = exec s m' := by
        simp only [execAll, bind, EStateM.bind, hstopped]
      rw [hall]
      exact hs.followed ss

end

end Statement

def Effect.unlimited (environment : Environment) (ss : List Statement) : Effect ByteArray :=
  .ofExec (Statement.interpret ss ⟨environment, .empty, #[]⟩)

def Effect.limited (n : Nat) (reason : String) (environment : Environment) (ss : List Statement) :
    Effect BoundedSink :=
  .ofExec (Statement.interpret ss ⟨environment, ⟨.empty, n, reason⟩, #[]⟩)

theorem bounded_output (ss : List Statement) (environment : Environment) (n : Nat) (reason : String) :
    let full := Effect.unlimited environment ss
    let bounded := Effect.limited n reason environment ss
    (full.output.size ≤ n →
      bounded.result = full.result ∧ bounded.output.taken = full.output ∧ bounded.environment = full.environment) ∧
    (n < full.output.size → ∃ (place : Place) (e : Expr) (line : Nat) (v : Value),
      let before := Effect.unlimited environment (place.upTo (.expression e line))
      let after := Effect.unlimited environment (place.upTo (.print e line))
      ss = place.fill (.print e line) ∧ before.result = .ok () ∧ after.result = .ok () ∧
      after.output = before.output ++ (v.text ++ "\n").toUTF8 ∧ before.output.size ≤ n ∧ n < after.output.size ∧
      bounded.result = .error (.runtime ⟨.output reason, line⟩) ∧ bounded.output.taken = full.output.extract 0 n ∧
      bounded.environment = before.environment ∧ bounded.environment.shape = environment.shape) := by
  simp only [Effect.unlimited, Effect.limited, Effect.ofExec_interpret]
  have halike : Machine.Alike (Within n reason) ⟨environment, ByteArray.empty, #[]⟩
      ⟨environment, ⟨.empty, n, reason⟩, #[]⟩ := ⟨rfl, Nat.zero_le n, rfl⟩
  rcases Statement.execAll_bounded ss _ _ halike with hmatches | hover
  · obtain ⟨hresult, henvironment, hsize, hb⟩ := Effect.ofExec_matches hmatches
    refine ⟨fun _ => ⟨?_, by rw [hb], henvironment⟩, fun hlt => absurd hsize (Nat.not_le.mpr hlt)⟩
    exact hresult.trans (congrArg Effect.result (Effect.mapLine_id _))
  · obtain ⟨place, e, line, before, after, stopped, hfill, hbefore, hafter, hextends, hr, hcut⟩ := hover
    refine ⟨fun hle => absurd (hextends.size_le.trans hle) (Nat.not_le.mpr hcut.beyond), fun _ => ?_⟩
    obtain ⟨v, hprinted⟩ := hcut.printed
    refine ⟨place, e, line, v, hfill, ?_⟩
    rw [hbefore, hafter, hr, hextends.extract hcut.beyond.le]
    refine ⟨rfl, rfl, hprinted, hcut.fits, hcut.beyond, rfl, hcut.taken, hcut.environment, ?_⟩
    exact (congrArg _ hcut.environment).trans (Statement.execAll_firm _ _ _ _ hbefore)

theorem bounded_output_inside_character :
    let environment : Environment := ⟨#[⟨[("s", .string "é")], none⟩, ⟨[], some .global⟩], ⟨1⟩⟩
    let assigned : Environment := ⟨#[⟨[("s", .string "ü€")], none⟩, ⟨[], some .global⟩], ⟨1⟩⟩
    let body : List Statement :=
      [.print (.variable "s" 2) 2,
       .block [.print (.assign "s" (.literal (.string "ü€") 3) 3) 3, .expression (.assign "s" (.literal .nil 4) 4) 4] 3]
    let ss : List Statement := [.block body 1, .print (.variable "s" 5) 5]
    let full := Effect.unlimited environment ss
    let ample := Effect.limited 13 "full" environment ss
    let scarce := Effect.limited 6 "full" environment ss
    full.output.size = 13 ∧
      (ample.result = full.result ∧ ample.output.taken = full.output ∧ ample.environment = full.environment) ∧
      scarce.result = .error (.runtime ⟨.output "full", 3⟩) ∧ scarce.environment = assigned ∧
      scarce.output.taken = full.output.extract 0 6 ∧ scarce.environment.shape = environment.shape := by
  intro environment assigned body ss
  have hsize : (Effect.unlimited environment ss).output.size = 13 := by decide +kernel
  obtain ⟨hfits, -⟩ := bounded_output ss environment 13 "full"
  obtain ⟨-, hbeyond⟩ := bounded_output ss environment 6 "full"
  obtain ⟨_, _, _, _, -, -, -, -, -, -, -, htaken, -, hshape⟩ := hbeyond (by rw [hsize]; decide)
  refine ⟨hsize, hfits hsize.le, ?_, ?_, htaken, hshape⟩
  · decide +kernel
  · decide +kernel

end Treewalk
