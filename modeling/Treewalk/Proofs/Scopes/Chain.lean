import Treewalk.Environment

namespace Treewalk

def ScopeId.around : Nat → Option ScopeId
  | 0 => none
  | i + 1 => some ⟨i⟩

def ScopeId.below : Nat → List ScopeId
  | 0 => []
  | n + 1 => ⟨n⟩ :: below n

theorem ScopeId.length_below (n : Nat) : (below n).length = n := by
  induction n with
  | zero => rfl
  | succ n ih => rw [below, List.length_cons, ih]

theorem ScopeId.below_inj {m n : Nat} (h : below m = below n) : m = n := by
  rw [← length_below m, h, length_below]

theorem ScopeId.lt_of_mem_below {id : ScopeId} {n : Nat} (h : id ∈ below n) : id.index < n := by
  induction n with
  | zero => cases h
  | succ n ih =>
      cases h with
      | head => exact n.lt_succ_self
      | tail _ h => exact Nat.lt_succ_of_lt (ih h)

def Abort.undefined (name : String) (line : Nat) : Abort :=
  .error ⟨.undefinedVariable name, line⟩

namespace Scope

def locate (ss : List Scope) (name : String) : Option (ScopeId × Value) :=
  (ScopeId.below ss.length).findSome? fun id => ((ss[id.index]?).bind (·.get? name)).map (id, ·)

theorem lt_of_locate {ss : List Scope} {name : String} {found : ScopeId × Value}
    (h : locate ss name = some found) : found.1.index < ss.length := by
  obtain ⟨id, hid, hf⟩ := List.exists_of_findSome?_eq_some h
  obtain ⟨v, -, rfl⟩ := Option.map_eq_some_iff.mp hf
  exact ScopeId.lt_of_mem_below hid

end Scope

namespace Environment

structure Chained (env : Environment) : Prop where
  last : env.current.index + 1 = env.scopes.size
  parent : ∀ i s, env.scopes[i]? = some s → s.parent = ScopeId.around i

variable {env : Environment}

namespace Chained

theorem initial : Chained initial where
  last := rfl
  parent i s hs := by
    obtain _ | i := i
    · obtain ⟨⟩ := hs
      rfl
    · cases hs

theorem outward_eq (h : env.Chained) {i fuel : Nat} (hi : i < env.scopes.size) (hf : i < fuel) :
    outward env.scopes fuel ⟨i⟩ = (ScopeId.below (i + 1), none) := by
  have hs := Array.getElem?_eq_getElem hi
  induction i generalizing fuel with
  | zero =>
      obtain ⟨fuel, rfl⟩ := Nat.exists_eq_add_of_lt hf
      simp only [outward, hs, h.parent 0 _ hs]
      rfl
  | succ i ih =>
      obtain ⟨fuel, rfl⟩ := Nat.exists_eq_add_of_lt hf
      have walk := ih (by omega) (by omega : i < i + 1 + fuel) (Array.getElem?_eq_getElem _)
      simp only [outward, hs, h.parent _ _ hs, ScopeId.around, walk, ScopeId.below]

theorem chain_eq (h : env.Chained) : env.chain = (ScopeId.below env.scopes.size, none) := by
  have hlast := h.last
  rw [← hlast]
  exact h.outward_eq (i := env.current.index) (by omega) (by omega)

theorem depth_eq (h : env.Chained) : env.depth = .ok env.scopes.size := by
  rw [depth, h.chain_eq]
  exact congrArg _ (ScopeId.length_below _)

theorem bindIn (h : env.Chained) (id : ScopeId) (name : String) (value : Value) :
    (env.bindIn id name value).Chained where
  last := by
    rw [Environment.bindIn, Array.size_modify]
    exact h.last
  parent i s hs := by
    rw [Environment.bindIn, Array.getElem?_modify] at hs
    split at hs
    · obtain ⟨t, ht, rfl⟩ := Option.map_eq_some_iff.mp hs
      exact h.parent i t ht
    · exact h.parent i s hs

theorem push (h : env.Chained) : env.push.Chained where
  last := by
    rw [Environment.push, Array.size_push]
  parent i s hs := by
    rw [Environment.push, Array.getElem?_push] at hs
    split at hs
    · subst i
      obtain ⟨⟩ := hs
      rw [← h.last]
      rfl
    · exact h.parent i s hs

theorem pop (h : env.Chained) {i : Nat} (hi : i + 2 = env.scopes.size) :
    (env.pop ⟨i⟩).Chained where
  last := by
    have hlast := h.last
    simp only [Environment.pop, Array.take_eq_extract, Array.size_extract]
    omega
  parent j s hs := by
    simp only [Environment.pop, Array.take_eq_extract, Array.getElem?_extract, Nat.zero_add] at hs
    split at hs
    · exact h.parent j s hs
    · cases hs

theorem pop_handle (h : env.Chained) {handle : ScopeId} {handles : List ScopeId}
    (hs : ScopeId.below env.current.index = handle :: handles) :
    (env.pop handle).Chained ∧ ScopeId.below (env.pop handle).current.index = handles := by
  have last := h.last
  cases hc : env.current.index with
  | zero =>
      rw [hc] at hs
      cases hs
  | succ i =>
      rw [hc] at hs last
      obtain ⟨rfl, rfl⟩ := List.cons.inj hs
      exact ⟨h.pop last, rfl⟩

theorem resolve_eq (h : env.Chained) (name : String) :
    env.resolve name = .ok (Scope.locate env.scopes.toList name) := by
  have located : Scope.locate env.scopes.toList name =
      (ScopeId.below env.scopes.size).findSome? fun id => (env.binding? name id).map (id, ·) := by
    simp only [Scope.locate, binding?, Array.getElem?_toList, Array.length_toList]
  rw [resolve, h.chain_eq, located]
  simp only
  cases (ScopeId.below env.scopes.size).findSome? fun id => (env.binding? name id).map (id, ·) <;> rfl

theorem find_eq (h : env.Chained) (name : String) (line : Nat) :
    env.find name line =
      (Scope.locate env.scopes.toList name).elim (.error (.undefined name line)) .ok := by
  rw [find, h.resolve_eq]
  cases Scope.locate env.scopes.toList name <;> rfl

theorem define_eq (h : env.Chained) (name : String) (value : Value) :
    env.define name value = .ok (env.bindIn env.current name value) := by
  have hlast := h.last
  rw [define, if_pos (by omega)]

theorem enter_eq (h : env.Chained) :
    enter env = .ok (env.current, .entered env.push.current.index env.push.scopes.size) env.push := by
  rw [enter, h.push.depth_eq]

theorem leave_eq (h : env.Chained) (enclosing : ScopeId) :
    leave enclosing env = .ok (.leaving env.current.index env.scopes.size) (env.pop enclosing) := by
  rw [leave, h.depth_eq]

end Chained

end Environment

end Treewalk
