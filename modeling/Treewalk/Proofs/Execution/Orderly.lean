import Treewalk.Proofs.Execution.Steps
import Treewalk.Proofs.Scopes.Chain

namespace Treewalk

open Machine

section Keeps

variable {W α β : Type}

def Keeps (act : Exec W α) (opened : α → List ScopeId) : Prop :=
  ∀ m, m.environment.Chained →
    match act m with
    | .ok a m' => m'.environment.Chained ∧
        ScopeId.below m'.environment.current.index =
          opened a ++ ScopeId.below m.environment.current.index
    | .error a m' => m'.environment.Chained ∧
        ScopeId.below m'.environment.current.index =
          ScopeId.below m.environment.current.index ∧ ∀ f, a ≠ .fault f

namespace Keeps

variable {act : Exec W α} {opened : α → List ScopeId}

theorem pure {a : α} (h : opened a = []) : Keeps (pure a : Exec W α) opened := by
  intro m hm
  refine ⟨hm, ?_⟩
  rw [h, List.nil_append]

theorem map {f : α → β} {opened' : β → List ScopeId} (h : Keeps act opened)
    (hf : ∀ a, opened' (f a) = opened a) : Keeps (f <$> act) opened' := by
  intro m hm
  have kept := h m hm
  simp only [Functor.map, EStateM.map]
  cases hact : act m with
  | ok a m' =>
      rw [hact] at kept
      exact ⟨kept.1, (hf a).symm ▸ kept.2⟩
  | error a m' =>
      rw [hact] at kept
      exact kept

theorem bind {next : α → Exec W β} {opened : β → List ScopeId} (h : Keeps act fun _ => [])
    (hnext : ∀ a, Keeps (next a) opened) : Keeps (act >>= next) opened := by
  intro m hm
  have kept := h m hm
  simp only [Bind.bind, EStateM.bind]
  cases hact : act m with
  | ok a m' =>
      rw [hact] at kept
      obtain ⟨chained, same⟩ := kept
      have kept := hnext a m' chained
      rwa [same] at kept
  | error a m' =>
      rw [hact] at kept
      exact kept

theorem tell (r : Record) : Keeps (tell r : Exec W Unit) fun _ => [] :=
  fun _ hm => ⟨hm, rfl⟩

theorem printLine [Sink W] (text : String) (line : Nat) :
    Keeps (printLine text line : Exec W Unit) fun _ => [] := by
  intro m hm
  unfold Machine.printLine
  obtain ⟨output, _ | reason⟩ := Sink.write m.output (text ++ "\n").toUTF8
  · exact ⟨hm, rfl⟩
  · exact ⟨hm, rfl, nofun⟩

theorem raising (line : Nat) (result : Except Cause Value) :
    Keeps (onEnvironment (raiseOn line result) : Exec W Value) fun _ => [] := by
  intro m hm
  cases result with
  | ok v => exact ⟨hm, rfl⟩
  | error cause => exact ⟨hm, rfl, nofun⟩

theorem reading (name : String) (line : Nat) :
    Keeps (reading name line : Exec W Value) fun _ => [] := by
  intro m hm
  rw [reading_apply, Environment.get, hm.find_eq]
  cases Scope.locate m.environment.scopes.toList name with
  | none => exact ⟨hm, rfl, nofun⟩
  | some found => exact ⟨hm, rfl⟩

theorem assigning (name : String) (line : Nat) (v : Value) :
    Keeps (assigning name line v : Exec W Value) fun _ => [] := by
  intro m hm
  rw [assigning_apply, Environment.assign, hm.find_eq]
  cases Scope.locate m.environment.scopes.toList name with
  | none => exact ⟨hm, rfl, nofun⟩
  | some found => exact ⟨hm.bindIn .., rfl⟩

theorem declaring (name : String) (line : Nat) (v : Value) :
    Keeps (declaring name line v : Exec W Unit) fun _ => [] := by
  intro m hm
  rw [declaring_apply, hm.define_eq]
  exact ⟨hm.bindIn .., rfl⟩

theorem entering : Keeps (entering : Exec W ScopeId) fun enclosing => [enclosing] := by
  intro m hm
  have entered := hm.enter_eq
  simp only [Machine.entering, onEnvironment, Bind.bind, EStateM.bind, entered]
  refine ⟨hm.push, ?_⟩
  change ScopeId.below m.environment.scopes.size = _
  rw [← hm.last]
  rfl

theorem eval (e : Expr) : Keeps (onEnvironment e.eval : Exec W Value) fun _ => [] := by
  induction e with
  | literal v line => exact pure rfl
  | group e line ih => exact ih
  | unary op e line ih =>
      rw [Expr.eval, onEnvironment_bind]
      exact ih.bind fun v => raising line _
  | binary op l r line ihl ihr =>
      simp only [Expr.eval, onEnvironment_bind]
      exact ihl.bind fun a => ihr.bind fun b => raising line _
  | «variable» name line => exact reading name line
  | assign name e line ih =>
      rw [Expr.eval, onEnvironment_bind]
      exact ih.bind fun v => assigning name line v

end Keeps

end Keeps

theorem leaving_of_chained {W : Type} {m : Machine W} (hm : m.environment.Chained)
    (enclosing : ScopeId) : ∃ log, leaving enclosing m =
      .ok () ⟨m.environment.pop enclosing, m.output, log⟩ := by
  simp only [leaving, onEnvironment, Bind.bind, EStateM.bind, hm.leave_eq]
  exact ⟨_, rfl⟩

variable {W : Type} [Sink W]

namespace Task

theorem handles_exec (ss : List Statement) : (ss.map exec).filterMap handle? = [] := by
  rw [List.filterMap_map]
  exact List.filterMap_eq_nil_iff.mpr fun _ _ => rfl

theorem act_keeps {t : Task} {vs : List Value} {act : Exec W (List Task × List Value)}
    (h : t.act vs = some act) (ht : t.handle? = none) :
    Keeps act fun x => x.1.filterMap handle? := by
  cases t with
  | eval e =>
      cases e with
      | «variable» name line =>
          cases h
          exact (Keeps.reading name line).map fun _ => rfl
      | _ =>
          cases h
          exact .pure rfl
  | unary op line =>
      obtain _ | ⟨v, vs⟩ := vs
      · cases h
      · cases h
        exact (Keeps.raising line _).map fun _ => rfl
  | binary op line =>
      obtain _ | ⟨b, _ | ⟨a, vs⟩⟩ := vs
      · cases h
      · cases h
      · cases h
        exact (Keeps.raising line _).map fun _ => rfl
  | assign name line =>
      obtain _ | ⟨v, vs⟩ := vs
      · cases h
      · cases h
        exact (Keeps.assigning name line v).map fun _ => rfl
  | discard =>
      obtain _ | ⟨v, vs⟩ := vs
      · cases h
      · cases h
        exact .pure rfl
  | print line =>
      obtain _ | ⟨v, vs⟩ := vs
      · cases h
      · cases h
        exact (Keeps.printLine v.text line).map fun _ => rfl
  | declare name line =>
      obtain _ | ⟨v, vs⟩ := vs
      · cases h
      · cases h
        exact (Keeps.declaring name line v).map fun _ => rfl
  | exec s =>
      cases s with
      | expression e line =>
          cases h
          exact (Keeps.tell _).map fun _ => rfl
      | print e line =>
          cases h
          exact .pure rfl
      | declare name initial line =>
          cases initial <;> cases h <;> exact .pure rfl
      | block body line =>
          cases h
          refine Keeps.entering.map fun enclosing => ?_
          rw [List.filterMap_append, handles_exec]
          rfl
  | leave enclosing => cases ht

end Task

namespace Config

structure Orderly (c : Config W) : Prop where
  chained : c.machine.environment.Chained
  handles : c.tasks.filterMap Task.handle? = ScopeId.below c.machine.environment.current.index
  no_fault : ∀ f, c.status ≠ .stopped (.fault f)

namespace Orderly

variable {c c' : Config W} {ts : List Task} {status : Status} {m : Machine W}

omit [Sink W] in
theorem ended (h : Orderly c) (hc : c.tasks = []) :
    c.machine.environment.current = .global ∧ c.machine.environment.scopes.size = 1 := by
  have length := ScopeId.length_below c.machine.environment.current.index
  rw [← h.handles, hc] at length
  have last := h.chained.last
  rw [← length] at last
  exact ⟨congrArg ScopeId.mk length.symm, last.symm⟩

omit [Sink W] in
theorem leave {enclosing : ScopeId} (h : Orderly ⟨.leave enclosing :: ts, status, m⟩)
    (log : Array Record) :
    Orderly ⟨ts, status, ⟨m.environment.pop enclosing, m.output, log⟩⟩ := by
  obtain ⟨chained, handles⟩ := h.chained.pop_handle h.handles.symm
  exact ⟨chained, handles.symm, h.no_fault⟩

theorem step_leave {enclosing : ScopeId} (h : Orderly ⟨.leave enclosing :: ts, status, m⟩)
    (hstep : step ⟨.leave enclosing :: ts, status, m⟩ = some c') : Orderly c' := by
  obtain ⟨log, left⟩ := leaving_of_chained h.chained enclosing
  cases status with
  | running vs =>
      simp only [step, Task.act, Option.map_some, Functor.map, EStateM.map, left,
        Option.some.injEq] at hstep
      subst hstep
      exact h.leave log
  | stopped a =>
      simp only [step, left, Option.some.injEq] at hstep
      subst hstep
      exact h.leave log

theorem step_other {t : Task} (ht : t.handle? = none) (h : Orderly ⟨t :: ts, status, m⟩)
    (hstep : step ⟨t :: ts, status, m⟩ = some c') : Orderly c' := by
  have handles := h.handles
  rw [List.filterMap_cons_none ht] at handles
  cases status with
  | running vs =>
      obtain ⟨act, hact, rfl⟩ := Option.map_eq_some_iff.mp hstep
      have kept := Task.act_keeps hact ht m h.chained
      cases hm : act m with
      | ok x m' =>
          obtain ⟨new, us⟩ := x
          rw [hm] at kept
          refine ⟨kept.1, ?_, nofun⟩
          rw [List.filterMap_append, handles]
          exact kept.2.symm
      | error a m' =>
          rw [hm] at kept
          obtain ⟨chained, same, no_fault⟩ := kept
          exact ⟨chained, handles.trans same.symm, fun f hf => no_fault f (Status.stopped.inj hf)⟩
  | stopped a =>
      rw [step_stopped ht] at hstep
      obtain ⟨⟩ := hstep
      exact ⟨h.chained, handles, h.no_fault⟩

theorem step (h : Orderly c) (hstep : c.step = some c') : Orderly c' := by
  obtain ⟨tasks, status, m⟩ := c
  cases tasks with
  | nil => cases hstep
  | cons t ts =>
      cases ht : t.handle? with
      | none => exact step_other ht h hstep
      | some enclosing =>
          cases t with
          | leave enclosing => exact step_leave h hstep
          | _ => cases ht

theorem reaches (h : Orderly c) (hc : Reaches c c') : Orderly c' := by
  induction hc with
  | refl => exact h
  | tail _ hstep ih => exact ih.step hstep

end Orderly

end Config

end Treewalk
