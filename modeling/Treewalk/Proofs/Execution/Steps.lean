import Mathlib.Logic.Relation
import Treewalk.Statement.Exec

namespace Treewalk

open Machine

inductive Task where
  | eval (e : Expr)
  | unary (op : UnaryOp) (line : Nat)
  | binary (op : BinaryOp) (line : Nat)
  | assign (name : String) (line : Nat)
  | discard
  | print (line : Nat)
  | declare (name : String) (line : Nat)
  | exec (s : Statement)
  | leave (enclosing : ScopeId)

def Task.handle? : Task → Option ScopeId
  | .leave enclosing => some enclosing
  | _ => none

inductive Status where
  | running (values : List Value)
  | stopped (a : Abort)

structure Config (W : Type) where
  tasks : List Task
  status : Status
  machine : Machine W

namespace Machine

variable {W : Type}

def reading (name : String) (line : Nat) : Exec W Value :=
  onEnvironment do MonadExcept.ofExcept ((← get).get name line)

def assigning (name : String) (line : Nat) (v : Value) : Exec W Value :=
  onEnvironment do
    set (← MonadExcept.ofExcept ((← get).assign name v line))
    return v

def declaring (name : String) (line : Nat) (v : Value) : Exec W Unit := do
  tell (.defining name v line)
  onEnvironment (do set (← MonadExcept.ofExcept ((← get).define name v)))

def entering : Exec W ScopeId := do
  let (enclosing, entered) ← onEnvironment Environment.enter
  tell entered
  return enclosing

def leaving (enclosing : ScopeId) : Exec W Unit := do
  tell (← onEnvironment (Environment.leave enclosing))

theorem get_apply (env : Environment) : (get : EStateM Abort Environment _) env = .ok env env :=
  rfl

theorem reading_apply (name : String) (line : Nat) (m : Machine W) :
    reading name line m =
      match m.environment.get name line with
      | .ok v => .ok v m
      | .error a => .error a m := by
  cases h : m.environment.get name line <;>
    simp only [reading, onEnvironment, bind, EStateM.bind, get_apply, h] <;> rfl

theorem assigning_apply (name : String) (line : Nat) (v : Value) (m : Machine W) :
    assigning name line v m =
      match m.environment.assign name v line with
      | .ok env => .ok v { m with environment := env }
      | .error a => .error a m := by
  cases h : m.environment.assign name v line <;>
    simp only [assigning, onEnvironment, bind, EStateM.bind, get_apply, h] <;> rfl

theorem declaring_apply (name : String) (line : Nat) (v : Value) (m : Machine W) :
    declaring name line v m =
      match m.environment.define name v with
      | .ok env => .ok () ⟨env, m.output, m.log.push (.defining name v line)⟩
      | .error a => .error a { m with log := m.log.push (.defining name v line) } := by
  cases h : m.environment.define name v <;>
    simp only [declaring, tell, onEnvironment, bind, EStateM.bind, get_apply, h] <;> rfl

theorem onEnvironment_bind {α β : Type} (act : EStateM Abort Environment α)
    (next : α → EStateM Abort Environment β) :
    (onEnvironment (act >>= next) : Exec W β) =
      onEnvironment act >>= fun a => onEnvironment (next a) := by
  funext m
  simp only [onEnvironment, bind, EStateM.bind]
  cases act m.environment <;> rfl

theorem inNewScope_eq (act : Exec W Unit) :
    inNewScope act = entering >>= fun enclosing => tryFinally act (leaving enclosing) := by
  simp only [inNewScope, entering, leaving, bind_assoc, pure_bind]

end Machine

variable {W : Type} [Sink W]

def Task.act : Task → List Value → Option (Exec W (List Task × List Value))
  | .eval (.literal v _), vs => some (return ([], v :: vs))
  | .eval (.group e _), vs => some (return ([.eval e], vs))
  | .eval (.unary op e line), vs => some (return ([.eval e, .unary op line], vs))
  | .eval (.binary op l r line), vs => some (return ([.eval l, .eval r, .binary op line], vs))
  | .eval (.variable name line), vs =>
      some ((fun v => ([], v :: vs)) <$> reading name line)
  | .eval (.assign name e line), vs => some (return ([.eval e, .assign name line], vs))
  | .unary op line, v :: vs =>
      some ((fun w => ([], w :: vs)) <$> onEnvironment (raiseOn line (op.apply v)))
  | .binary op line, b :: a :: vs =>
      some ((fun w => ([], w :: vs)) <$> onEnvironment (raiseOn line (op.apply a b)))
  | .assign name line, v :: vs =>
      some ((fun w => ([], w :: vs)) <$> assigning name line v)
  | .discard, _ :: vs => some (return ([], vs))
  | .print line, v :: vs => some ((fun _ => ([], vs)) <$> printLine v.text line)
  | .declare name line, v :: vs => some ((fun _ => ([], vs)) <$> declaring name line v)
  | .exec (.expression e line), vs =>
      some ((fun _ => ([.eval e, .discard], vs)) <$> tell (.evaluating line))
  | .exec (.print e line), vs => some (return ([.eval e, .print line], vs))
  | .exec (.declare name (some e) line), vs => some (return ([.eval e, .declare name line], vs))
  | .exec (.declare name none line), vs => some (return ([.declare name line], .nil :: vs))
  | .exec (.block body _), vs =>
      some ((fun enclosing => (body.map .exec ++ [.leave enclosing], vs)) <$> entering)
  | .leave enclosing, vs => some ((fun _ => ([], vs)) <$> leaving enclosing)
  | _, _ => none

namespace Config

def step : Config W → Option (Config W)
  | ⟨[], _, _⟩ => none
  | ⟨t :: ts, .running vs, m⟩ =>
      (t.act vs).map fun act =>
        match act m with
        | .ok (new, vs) m => ⟨new ++ ts, .running vs, m⟩
        | .error a m => ⟨ts, .stopped a, m⟩
  | ⟨.leave enclosing :: ts, .stopped a, m⟩ =>
      match leaving enclosing m with
      | .ok _ m => some ⟨ts, .stopped a, m⟩
      | .error a m => some ⟨ts, .stopped a, m⟩
  | ⟨_ :: ts, .stopped a, m⟩ => some ⟨ts, .stopped a, m⟩

def Reaches : Config W → Config W → Prop :=
  Relation.ReflTransGen fun c c' => c.step = some c'

def settled {α : Type} (rest : List Task) (values : α → List Value) :
    EStateM.Result Abort (Machine W) α → Config W
  | .ok a m => ⟨rest, .running (values a), m⟩
  | .error a m => ⟨rest, .stopped a, m⟩

theorem step_stopped {t : Task} (ht : t.handle? = none) (ts : List Task) (a : Abort) (m : Machine W) :
    step ⟨t :: ts, .stopped a, m⟩ = some ⟨ts, .stopped a, m⟩ := by
  cases t with
  | leave enclosing => cases ht
  | _ => rfl

end Config

open Config

def Performs {α : Type} (tasks : List Task) (vs : List Value) (act : Exec W α)
    (values : α → List Value) : Prop :=
  ∀ rest m, Reaches ⟨tasks ++ rest, .running vs, m⟩ (settled rest values (act m))

namespace Performs

variable {α β : Type} {t : Task} {ts us : List Task} {vs : List Value}

theorem of_act {first : Exec W β} {new : β → List Task} {between : β → List Value}
    {others : β → Exec W α} {values : α → List Value}
    (h : t.act vs = some ((fun b => (new b, between b)) <$> first))
    (hothers : ∀ b, Performs (new b) (between b) (others b) values) :
    Performs [t] vs (first >>= others) values := by
  intro rest m
  have step : Config.step ⟨[t] ++ rest, .running vs, m⟩ =
      some (match first m with
        | .ok b m => ⟨new b ++ rest, .running (between b), m⟩
        | .error a m => ⟨rest, .stopped a, m⟩) := by
    simp only [List.cons_append, List.nil_append, Config.step, h, Option.map_some]
    cases hf : first m <;> simp only [Functor.map, EStateM.map, hf]
  cases hf : first m with
  | ok b m' =>
      have others := hothers b rest m'
      rw [hf] at step
      simp only [bind, EStateM.bind, hf]
      exact .head step others
  | error a m' =>
      rw [hf] at step
      simp only [bind, EStateM.bind, hf]
      exact .single step

theorem of_return {new : List Task} {us : List Value} {act : Exec W α} {values : α → List Value}
    (h : t.act (W := W) vs = some (return (new, us))) (hact : Performs new us act values) :
    Performs [t] vs act values := by
  intro rest m
  have step : Config.step ⟨[t] ++ rest, .running vs, m⟩ = some ⟨new ++ rest, .running us, m⟩ := by
    simp only [List.cons_append, List.nil_append, Config.step, h, Option.map_some]
    rfl
  exact .head step (hact rest m)

theorem of_effect {act : Exec W α} {values : α → List Value}
    (h : t.act vs = some ((fun a => ([], values a)) <$> act)) : Performs [t] vs act values := by
  have performs : Performs [t] vs (act >>= pure) values := of_act h fun _ _ _ => .refl
  rwa [bind_pure] at performs

theorem reaches_dropped (hts : ∀ t ∈ ts, t.handle? = none) (rest : List Task) (a : Abort)
    (m : Machine W) : Reaches ⟨ts ++ rest, .stopped a, m⟩ ⟨rest, .stopped a, m⟩ := by
  induction ts with
  | nil => exact .refl
  | cons t ts ih =>
      obtain ⟨ht, hts⟩ := List.forall_mem_cons.mp hts
      exact .head (step_stopped ht _ a m) (ih hts)

theorem append {act : Exec W α} {between : α → List Value} {next : α → Exec W β}
    {values : β → List Value} (h : Performs ts vs act between)
    (hnext : ∀ a, Performs us (between a) (next a) values)
    (hus : ∀ t ∈ us, t.handle? = none) :
    Performs (ts ++ us) vs (act >>= next) values := by
  intro rest m
  have first := h (us ++ rest) m
  rw [← List.append_assoc] at first
  cases hact : act m with
  | ok a m' =>
      have others := hnext a rest m'
      rw [hact] at first
      simp only [bind, EStateM.bind, hact]
      exact first.trans others
  | error a m' =>
      rw [hact] at first
      simp only [bind, EStateM.bind, hact]
      exact first.trans (reaches_dropped hus rest a m')

theorem finally_leaving {act : Exec W Unit} (h : Performs ts vs act fun _ => vs)
    (enclosing : ScopeId) :
    Performs (ts ++ [.leave enclosing]) vs (tryFinally act (leaving enclosing)) fun _ => vs := by
  intro rest m
  have first := h (.leave enclosing :: rest) m
  rw [List.append_cons] at first
  cases hact : act m with
  | ok a m' =>
      have last : Performs [.leave enclosing] vs (leaving (W := W) enclosing) fun _ => vs :=
        of_effect rfl
      have left := last rest m'
      rw [hact] at first
      refine first.trans ?_
      simp only [tryFinally, tryFinally', Functor.map, EStateM.map, hact]
      cases hleave : leaving enclosing m' <;> rw [hleave] at left <;> exact left
  | error a m' =>
      rw [hact] at first
      refine first.tail ?_
      simp only [tryFinally, tryFinally', Functor.map, EStateM.map, hact]
      cases hleave : leaving enclosing m' <;> simp only [settled, Config.step, hleave]

end Performs

theorem performs_eval (e : Expr) (vs : List Value) :
    Performs (W := W) [.eval e] vs (onEnvironment e.eval) (· :: vs) := by
  induction e generalizing vs with
  | literal v line => exact .of_return rfl fun _ _ => .refl
  | group e line ih => exact .of_return rfl (ih vs)
  | unary op e line ih =>
      rw [Expr.eval, onEnvironment_bind]
      exact .of_return rfl ((ih vs).append (fun v => .of_effect rfl) (by simp [Task.handle?]))
  | binary op l r line ihl ihr =>
      rw [Expr.eval, onEnvironment_bind]
      refine .of_return rfl ((ihl vs).append (fun a => ?_) (by simp [Task.handle?]))
      rw [onEnvironment_bind]
      exact (ihr (a :: vs)).append (fun b => .of_effect rfl) (by simp [Task.handle?])
  | «variable» name line => exact .of_effect rfl
  | assign name e line ih =>
      rw [Expr.eval, onEnvironment_bind]
      exact .of_return rfl ((ih vs).append (fun v => .of_effect rfl) (by simp [Task.handle?]))

mutual

theorem performs_exec (vs : List Value) :
    (s : Statement) → Performs (W := W) [.exec s] vs s.exec fun _ => vs
  | .expression e line => by
      rw [Statement.exec]
      refine .of_act rfl fun _ => ?_
      exact (performs_eval e vs).append (fun _ => .of_return rfl fun _ _ => .refl)
        (by simp [Task.handle?])
  | .print e line => by
      rw [Statement.exec]
      exact .of_return rfl
        ((performs_eval e vs).append (fun _ => .of_effect rfl) (by simp [Task.handle?]))
  | .declare name (some e) line => by
      rw [Statement.exec]
      exact .of_return rfl
        ((performs_eval e vs).append (fun _ => .of_effect rfl) (by simp [Task.handle?]))
  | .declare name none line => by
      rw [Statement.exec]
      exact .of_return rfl (.of_effect rfl)
  | .block body line => by
      rw [Statement.exec, inNewScope_eq]
      exact .of_act rfl fun enclosing => (performs_execAll vs body).finally_leaving enclosing

theorem performs_execAll (vs : List Value) :
    (ss : List Statement) → Performs (W := W) (ss.map .exec) vs (Statement.execAll ss) fun _ => vs
  | [] => by
      rw [Statement.execAll]
      exact fun _ _ => .refl
  | s :: ss => by
      rw [Statement.execAll]
      exact (performs_exec vs s).append (fun _ => performs_execAll vs ss) (by simp [Task.handle?])

end

end Treewalk
