import Mathlib.Data.Finset.Insert
import Treewalk.Proofs.Scopes.Chain
import Treewalk.Proofs.Scopes.Shape

namespace Treewalk

abbrev Names := List (Finset String)

namespace Names

def Declares (names : Names) (x : String) : Prop :=
  ∃ level ∈ names, x ∈ level

instance (names : Names) (x : String) : Decidable (names.Declares x) :=
  inferInstanceAs (Decidable (∃ level ∈ names, _))

def declare (x : String) : Names → Names
  | [] => []
  | level :: outer => insert x level :: outer

end Names

namespace Scope

def names (s : Scope) : Finset String :=
  (s.bindings.map Prod.fst).toFinset

theorem mem_names {s : Scope} {x : String} : x ∈ s.names ↔ (s.get? x).isSome := by
  rw [names, List.mem_toFinset, get?]
  induction s.bindings with
  | nil => simp
  | cons b bs ih =>
    rw [List.map_cons, List.mem_cons, List.lookup_cons, ih]
    by_cases h : x = b.1
    · simp [h]
    · simp [h, beq_eq_false_iff_ne.mpr h]

theorem names_insert (s : Scope) (x : String) (v : Value) : (s.insert x v).names = Insert.insert x s.names := by
  ext y
  rw [mem_names, Finset.mem_insert, mem_names]
  by_cases h : y = x
  · subst h
    simp
  · rw [get?_insert_of_ne s v h]
    simp [h]

end Scope

namespace Environment

variable {env env' : Environment} {x : String}

def namesAt (env : Environment) (id : ScopeId) : Finset String :=
  (env.scopes[id.index]?).elim ∅ Scope.names

def names (env : Environment) : Names :=
  env.chain.1.map env.namesAt

theorem isSome_binding? (id : ScopeId) : (env.binding? x id).isSome ↔ x ∈ env.namesAt id := by
  rw [binding?, namesAt]
  cases env.scopes[id.index]? with
  | none => simp
  | some scope => exact Scope.mem_names.symm

theorem find_of_declares (h : env.names.Declares x) (line : Nat) :
    ∃ found, env.find x line = .ok found ∧ x ∈ env.namesAt found.1 := by
  obtain ⟨_, hlevel, hx⟩ := h
  obtain ⟨id, hid, rfl⟩ := List.mem_map.mp hlevel
  obtain ⟨v, hv⟩ := Option.isSome_iff_exists.mp ((isSome_binding? id).mpr hx)
  have hsome : (env.chain.1.findSome? fun id => (env.binding? x id).map (id, ·)).isSome :=
    List.findSome?_isSome_iff.mpr ⟨id, hid, by rw [hv]; rfl⟩
  obtain ⟨found, hfound⟩ := Option.isSome_iff_exists.mp hsome
  obtain ⟨id', -, hbinding⟩ := List.exists_of_findSome?_eq_some hfound
  obtain ⟨w, hw, rfl⟩ := Option.map_eq_some_iff.mp hbinding
  refine ⟨(id', w), ?_, (isSome_binding? id').mp (by rw [hw]; rfl)⟩
  rw [find, resolve]
  simp only [hfound]

theorem find_of_not_declares (hroot : env.Rooted) (h : ¬ env.names.Declares x) (line : Nat) :
    env.find x line = .error (.undefined x line) := by
  have hnone : (env.chain.1.findSome? fun id => (env.binding? x id).map (id, ·)) = none := by
    refine List.findSome?_eq_none_iff.mpr fun id hid => ?_
    rw [Option.map_eq_none_iff, ← Option.not_isSome_iff_eq_none, isSome_binding?]
    exact fun hx => h ⟨_, List.mem_map_of_mem hid, hx⟩
  rw [Rooted] at hroot
  rw [find, resolve]
  simp only [hnone, hroot]
  rfl

theorem namesAt_bindIn_of_ne {id other : ScopeId} (h : other ≠ id) (v : Value) :
    (env.bindIn id x v).namesAt other = env.namesAt other := by
  have hindex : id.index ≠ other.index := fun hi => h (congrArg ScopeId.mk hi.symm)
  rw [namesAt, namesAt, bindIn, Array.getElem?_modify, if_neg hindex]

theorem namesAt_bindIn_self {id : ScopeId} {scope : Scope} (h : env.scopes[id.index]? = some scope) (v : Value) :
    (env.bindIn id x v).namesAt id = insert x (env.namesAt id) := by
  rw [namesAt, namesAt, bindIn, Array.getElem?_modify, if_pos rfl, h]
  exact scope.names_insert x v

theorem chain_bindIn (id : ScopeId) (v : Value) : (env.bindIn id x v).chain = env.chain :=
  chain_of_shape (shape_bindIn ..)

theorem names_assign {id : ScopeId} (h : x ∈ env.namesAt id) (v : Value) :
    (env.bindIn id x v).names = env.names := by
  have hscope : ∃ scope, env.scopes[id.index]? = some scope := by
    cases hs : env.scopes[id.index]? with
    | none =>
      rw [namesAt, hs] at h
      exact absurd h (Finset.notMem_empty x)
    | some scope => exact ⟨scope, rfl⟩
  obtain ⟨scope, hscope⟩ := hscope
  rw [names, chain_bindIn]
  refine List.map_congr_left fun other _ => ?_
  by_cases hother : other = id
  · rw [hother, namesAt_bindIn_self hscope, Finset.insert_eq_of_mem h]
  · rw [namesAt_bindIn_of_ne hother]

theorem names_define (hroot : env.Rooted) (x : String) (v : Value) :
    (env.bindIn env.current x v).names = env.names.declare x := by
  obtain ⟨walk, -⟩ := hroot.walk
  obtain ⟨ids, hids⟩ := walk.eq_cons
  rw [hids] at walk
  obtain ⟨scope, hscope⟩ := walk.exists_scope env.current List.mem_cons_self
  rw [names, names, chain_bindIn, hids, List.map_cons, List.map_cons, Names.declare, namesAt_bindIn_self hscope]
  refine congrArg _ (List.map_congr_left fun id hid => namesAt_bindIn_of_ne (fun h => ?_) v)
  exact walk.head_notMem (h ▸ hid)

theorem names_push (hroot : env.Rooted) : env.push.names = ∅ :: env.names := by
  obtain ⟨walk, -⟩ := hroot.walk
  have hlast : env.push.scopes[env.scopes.size]? = some ⟨[], some env.current⟩ := Array.getElem?_push_size
  rw [names, names, hroot.chain_push, List.map_cons]
  refine congrArg₂ _ ?_ (List.map_congr_left fun id hid => ?_)
  · rw [namesAt, hlast]
    rfl
  · obtain ⟨scope, hscope⟩ := walk.exists_scope id hid
    rw [namesAt, namesAt, push, Array.getElem?_push, if_neg (Array.getElem?_eq_some_iff.mp hscope).1.ne]

theorem names_pop (hroot : env.Rooted) (h : env'.shape = env.push.shape) :
    (env'.pop env.current).names = env'.names.tail := by
  obtain ⟨walk, -⟩ := hroot.walk
  rw [names, names, chain_of_shape (shape_pop h hroot.size_pos), chain_of_shape h, hroot.chain_push, List.map_cons,
    List.tail_cons]
  refine List.map_congr_left fun id hid => ?_
  obtain ⟨scope, hscope⟩ := walk.exists_scope id hid
  have hlt := (Array.getElem?_eq_some_iff.mp hscope).1
  have hsize := size_of_shape h
  have hcurrent : env'.current.index = env.scopes.size := congrArg (ScopeId.index ∘ Prod.snd) h
  rw [push, Array.size_push] at hsize
  rw [namesAt, namesAt, pop, hcurrent, Array.take_eq_extract, Array.getElem?_extract, if_pos (by omega), Nat.zero_add]

end Environment

end Treewalk
