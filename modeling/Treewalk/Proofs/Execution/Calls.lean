import Treewalk.Proofs.Execution.Orderly
import Treewalk.Run

namespace Treewalk

open Machine Config

inductive Call where
  | run (source : String)
  | interpret (ss : List Statement)
  | execute (s : Statement)
  | evaluate (e : Expr)

namespace Call

variable {W : Type}

def reported {α : Type} (act : Exec W α) : EStateM Failure (Machine W) Unit := fun m =>
  match act m with
  | .ok _ m => .ok () m
  | .error stop m => .error (.ofAbort stop) m

def perform [Sink W] : Call → EStateM Failure (Machine W) Unit
  | .run source => Machine.run source
  | .interpret ss => reported (Statement.interpret ss)
  | .execute s => reported s.exec
  | .evaluate e => reported (onEnvironment e.eval)

def after [Sink W] (call : Call) (m : Machine W) : Machine W :=
  match call.perform m with
  | .ok _ m => m
  | .error _ m => m

def session [Sink W] (output : W) (calls : List Call) : Machine W :=
  calls.foldl (fun m call => call.after m) (.new output)

def start : Call → Machine W → Config W
  | .run source, m =>
      match load source m with
      | .ok ss m => ⟨ss.map .exec, .running [], { m with log := m.log.push (.running ss.length) }⟩
      | .error _ m => ⟨[], .running [], m⟩
  | .interpret ss, m => ⟨ss.map .exec, .running [], m⟩
  | .execute s, m => ⟨[.exec s], .running [], m⟩
  | .evaluate e, m => ⟨[.eval e], .running [], m⟩

-- The machines agree up to the records, as a call still tells of its error after its last step.
def Ends (c : Config W) (result : EStateM.Result Failure (Machine W) Unit) : Prop :=
  c.tasks = [] ∧
    match result with
    | .ok _ m => c.machine.environment = m.environment ∧ c.machine.output = m.output
    | .error failure m => c.machine.environment = m.environment ∧ c.machine.output = m.output ∧
        ∀ f, failure = .fault f → c.status = .stopped (.fault f)

structure AtRest (m : Machine W) : Prop where
  chained : m.environment.Chained
  current : m.environment.current = .global

theorem load_cases (source : String) (m : Machine W) :
    (∃ ss log, load source m = .ok ss { m with log }) ∨
      ∃ ds log, load source m = .error (.static ds) { m with log } := by
  cases h : (Program.ofSource source).accepted with
  | ok ss => exact .inl ⟨ss, m.log ++ (Program.ofSource source).records, by simp only [load, h]⟩
  | error ds => exact .inr ⟨ds, m.log ++ (Program.ofSource source).records, by simp only [load, h]⟩

theorem ends_reported {α : Type} (act : Exec W α) (values : α → List Value) (m : Machine W) :
    Ends (settled [] values (act m)) (reported act m) := by
  unfold reported
  cases act m with
  | ok a m' => exact ⟨rfl, rfl, rfl⟩
  | error a m' =>
      refine ⟨rfl, rfl, rfl, fun f hf => ?_⟩
      cases a with
      | error e => cases hf
      | fault g =>
          obtain ⟨⟩ := hf
          rfl

theorem AtRest.orderly {m : Machine W} (h : AtRest m) {ts : List Task}
    (hts : ts.filterMap Task.handle? = []) (log : Array Record) :
    Orderly ⟨ts, .running [], { m with log }⟩ where
  chained := h.chained
  handles := by
    rw [hts, h.current]
    rfl
  no_fault := nofun

theorem AtRest.start {m : Machine W} (h : AtRest m) (call : Call) : Orderly (call.start m) := by
  cases call with
  | run source =>
      obtain ⟨ss, log, hload⟩ | ⟨ds, log, hload⟩ := load_cases source m
      · simp only [Call.start, hload]
        exact h.orderly (Task.handles_exec ss) _
      · simp only [Call.start, hload]
        exact h.orderly rfl log
  | interpret ss => exact h.orderly (Task.handles_exec ss) m.log
  | execute s => exact h.orderly rfl m.log
  | evaluate e => exact h.orderly rfl m.log

variable [Sink W]

theorem ends_interpret (ss : List Statement) (values : Unit → List Value) (m : Machine W) :
    Ends (settled [] values (Statement.execAll ss m)) (reported (Statement.interpret ss) m) := by
  unfold reported Statement.interpret
  cases Statement.execAll ss m with
  | ok a m' => exact ⟨rfl, rfl, rfl⟩
  | error a m' =>
      cases a with
      | error e => exact ⟨rfl, rfl, rfl, nofun⟩
      | fault g =>
          refine ⟨rfl, rfl, rfl, fun f hf => ?_⟩
          obtain ⟨⟩ := hf
          rfl

theorem reaches_all (ss : List Statement) (m : Machine W) :
    Reaches ⟨ss.map .exec, .running [], m⟩
      (settled [] (fun _ => []) (Statement.execAll ss m)) := by
  have reaches := performs_execAll [] ss [] m
  rwa [List.append_nil] at reaches

theorem machine_start_eq (ss : List Statement) (m : Machine W) :
    Machine.start ss m =
      reported (Statement.interpret ss) { m with log := m.log.push (.running ss.length) } := by
  cases h : Statement.interpret ss { m with log := m.log.push (.running ss.length) } <;>
    simp only [Machine.start, reported, h]

theorem reaches_end (call : Call) (m : Machine W) :
    ∃ c, Reaches (call.start m) c ∧ Ends c (call.perform m) := by
  cases call with
  | run source =>
      obtain ⟨ss, log, hload⟩ | ⟨ds, log, hload⟩ := load_cases source m
      · simp only [start, perform, Machine.run, bind, EStateM.bind, hload, machine_start_eq]
        exact ⟨_, reaches_all ss _, ends_interpret ss _ _⟩
      · simp only [start, perform, Machine.run, bind, EStateM.bind, hload]
        exact ⟨_, .refl, rfl, rfl, rfl, nofun⟩
  | interpret ss => exact ⟨_, reaches_all ss m, ends_interpret ss _ m⟩
  | execute s => exact ⟨_, performs_exec [] s [] m, ends_reported s.exec _ m⟩
  | evaluate e => exact ⟨_, performs_eval e [] [] m, ends_reported (onEnvironment e.eval) _ m⟩

theorem Ends.environment {c : Config W} {call : Call} {m : Machine W}
    (h : Ends c (call.perform m)) : c.machine.environment = (call.after m).environment := by
  obtain ⟨-, ends⟩ := h
  unfold after
  cases hm : call.perform m with
  | ok a m' =>
      rw [hm] at ends
      exact ends.1
  | error failure m' =>
      rw [hm] at ends
      exact ends.1

theorem AtRest.after {m : Machine W} (h : AtRest m) (call : Call) : AtRest (call.after m) := by
  obtain ⟨c, hc, ends⟩ := call.reaches_end m
  have orderly := (h.start call).reaches hc
  have environment := ends.environment
  exact ⟨environment ▸ orderly.chained, environment ▸ (orderly.ended ends.1).1⟩

theorem AtRest.session (output : W) (calls : List Call) : AtRest (session output calls) := by
  suffices ∀ m : Machine W, AtRest m → AtRest (calls.foldl (fun m call => call.after m) m) from
    this _ ⟨.initial, rfl⟩
  induction calls with
  | nil => exact fun _ h => h
  | cons call calls ih => exact fun m h => ih _ (h.after call)

theorem AtRest.no_fault {m : Machine W} (h : AtRest m) (call : Call) (f : ScopeFault) (m' : Machine W) :
    call.perform m ≠ .error (.fault f) m' := by
  intro hfault
  obtain ⟨c, hc, -, hends⟩ := call.reaches_end m
  rw [hfault] at hends
  exact ((h.start call).reaches hc).no_fault f (hends.2.2 f rfl)

theorem scopes_restored_after_calls (output : W) (calls : List Call) :
    ((session output calls).environment.current = .global ∧
      (session output calls).environment.scopes.size = 1 ∧
      (session output calls).environment.depth = .ok 1) ∧
    ∀ call : Call,
      (∀ c, Reaches (call.start (session output calls)) c →
        c.machine.environment.Chained ∧ ∀ f, c.status ≠ .stopped (.fault f)) ∧
      (∃ c, Reaches (call.start (session output calls)) c ∧
        Ends c (call.perform (session output calls))) ∧
      ∀ f m, call.perform (session output calls) ≠ .error (.fault f) m := by
  have rest := AtRest.session output calls
  have last := rest.chained.last
  have depth := rest.chained.depth_eq
  rw [rest.current] at last
  rw [← last] at depth
  refine ⟨⟨rest.current, last.symm, depth⟩, fun call => ⟨fun c hc => ?_, call.reaches_end _, rest.no_fault call⟩⟩
  have orderly := (rest.start call).reaches hc
  exact ⟨orderly.chained, orderly.no_fault⟩

end Call

end Treewalk
