import Treewalk.Record

namespace Treewalk

structure ScopeId where
  index : Nat
  deriving DecidableEq, Repr

namespace ScopeId

def global : ScopeId := ⟨0⟩

end ScopeId

structure Scope where
  bindings : List (String × Value)
  parent : Option ScopeId
  deriving DecidableEq, Repr

namespace Scope

def get? (s : Scope) (name : String) : Option Value :=
  s.bindings.lookup name

def insert (s : Scope) (name : String) (value : Value) : Scope :=
  { s with bindings := (name, value) :: s.bindings.filter (·.1 ≠ name) }

@[simp] theorem get?_insert_self (s : Scope) (name : String) (value : Value) :
    (s.insert name value).get? name = some value := by
  simp [get?, insert]

theorem get?_insert_of_ne (s : Scope) {name other : String} (value : Value) (h : other ≠ name) :
    (s.insert name value).get? other = s.get? other := by
  simp only [get?, insert, List.lookup_cons, beq_eq_false_iff_ne.mpr h]
  induction s.bindings with
  | nil => rfl
  | cons b bs ih =>
      obtain ⟨key, v⟩ := b
      by_cases hk : key = name
      · subst hk
        simp only [ne_eq, not_true_eq_false, decide_false, Bool.false_eq_true, not_false_eq_true,
          List.filter_cons_of_neg, List.lookup_cons, beq_eq_false_iff_ne.mpr h]
        exact ih
      · simp only [ne_eq, hk, not_false_eq_true, decide_true, List.filter_cons_of_pos, List.lookup_cons]
        cases other == key with
        | true => rfl
        | false => exact ih

@[simp] theorem parent_insert (s : Scope) (name : String) (value : Value) :
    (s.insert name value).parent = s.parent := rfl

end Scope

inductive ScopeFault where
  | missing (id : ScopeId)
  | endless
  deriving DecidableEq, Repr

inductive Abort where
  | error (e : RuntimeError)
  | fault (f : ScopeFault)
  deriving DecidableEq, Repr

structure Environment where
  scopes : Array Scope
  current : ScopeId
  deriving DecidableEq, Repr

namespace Environment

def initial : Environment :=
  ⟨#[⟨[], none⟩], .global⟩

def outward (scopes : Array Scope) : (fuel : Nat) → (id : ScopeId) → List ScopeId × Option ScopeFault
  | 0, _ => ([], some .endless)
  | fuel + 1, id =>
      match scopes[id.index]? with
      | none => ([], some (.missing id))
      | some scope =>
          match scope.parent with
          | none => ([id], none)
          | some parent =>
              let (ids, fault) := outward scopes fuel parent
              (id :: ids, fault)

def chain (env : Environment) : List ScopeId × Option ScopeFault :=
  outward env.scopes (env.scopes.size + 1) env.current

def depth (env : Environment) : Except ScopeFault Nat :=
  match env.chain with
  | (ids, none) => .ok ids.length
  | (_, some fault) => .error fault

def binding? (env : Environment) (name : String) (id : ScopeId) : Option Value :=
  (env.scopes[id.index]?).bind (·.get? name)

def resolve (env : Environment) (name : String) : Except ScopeFault (Option (ScopeId × Value)) :=
  let (ids, fault) := env.chain
  match ids.findSome? (fun id => (env.binding? name id).map (id, ·)), fault with
  | some found, _ => .ok (some found)
  | none, none => .ok none
  | none, some f => .error f

def find (env : Environment) (name : String) (line : Nat) : Except Abort (ScopeId × Value) :=
  match env.resolve name with
  | .ok (some found) => .ok found
  | .ok none => .error (.error ⟨.undefinedVariable name, line⟩)
  | .error f => .error (.fault f)

def get (env : Environment) (name : String) (line : Nat) : Except Abort Value :=
  (env.find name line).map (·.2)

def bindIn (env : Environment) (id : ScopeId) (name : String) (value : Value) : Environment :=
  { env with scopes := env.scopes.modify id.index (·.insert name value) }

def assign (env : Environment) (name : String) (value : Value) (line : Nat) : Except Abort Environment :=
  (env.find name line).map fun found => env.bindIn found.1 name value

def define (env : Environment) (name : String) (value : Value) : Except Abort Environment :=
  if env.current.index < env.scopes.size then .ok (env.bindIn env.current name value)
  else .error (.fault (.missing env.current))

def push (env : Environment) : Environment :=
  ⟨env.scopes.push ⟨[], some env.current⟩, ⟨env.scopes.size⟩⟩

def pop (env : Environment) (enclosing : ScopeId) : Environment :=
  ⟨env.scopes.take (max env.current.index 1), enclosing⟩

def enter : EStateM Abort Environment (ScopeId × Record) := fun env =>
  match env.push.depth with
  | .ok depth => .ok (env.current, .entered env.push.current.index depth) env.push
  | .error f => .error (.fault f) env.push

def leave (enclosing : ScopeId) : EStateM Abort Environment Record := fun env =>
  match env.depth with
  | .ok depth => .ok (.leaving env.current.index depth) (env.pop enclosing)
  | .error f => .error (.fault f) env

end Environment

end Treewalk
