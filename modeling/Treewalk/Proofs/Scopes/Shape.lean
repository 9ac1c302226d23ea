import Treewalk.Environment

namespace Treewalk

namespace Environment

variable {env env' : Environment}

def shape (env : Environment) : Array (Option ScopeId) × ScopeId :=
  (env.scopes.map Scope.parent, env.current)

def Rooted (env : Environment) : Prop :=
  env.chain.2 = none

theorem outward_congr {scopes scopes' : Array Scope} (h : scopes.map Scope.parent = scopes'.map Scope.parent)
    (fuel : Nat) (id : ScopeId) : outward scopes fuel id = outward scopes' fuel id := by
  induction fuel generalizing id with
  | zero => rfl
  | succ fuel ih =>
    have hparent := congrArg (·[id.index]?) h
    simp only [Array.getElem?_map] at hparent
    rw [outward, outward]
    cases hs : scopes[id.index]? with
    | none =>
      rw [hs, Option.map_none, eq_comm, Option.map_eq_none_iff] at hparent
      rw [hparent]
    | some scope =>
      rw [hs, Option.map_some, eq_comm] at hparent
      obtain ⟨scope', hs', hparent⟩ := Option.map_eq_some_iff.mp hparent
      simp only [hs', hparent, ih]

theorem size_of_shape (h : env.shape = env'.shape) : env.scopes.size = env'.scopes.size := by
  have hsize := congrArg (Array.size ∘ Prod.fst) h
  simpa [shape] using hsize

theorem chain_of_shape (h : env.shape = env'.shape) : env.chain = env'.chain := by
  have hcurrent : env.current = env'.current := congrArg Prod.snd h
  rw [chain, chain, size_of_shape h, hcurrent, outward_congr (congrArg Prod.fst h)]

theorem Rooted.of_shape (hroot : env.Rooted) (h : env'.shape = env.shape) : env'.Rooted := by
  rw [Rooted, chain_of_shape h]
  exact hroot

theorem shape_bindIn (env : Environment) (id : ScopeId) (name : String) (value : Value) :
    (env.bindIn id name value).shape = env.shape := by
  refine Prod.ext (Array.ext_getElem? fun i => ?_) rfl
  simp only [shape, bindIn, Array.getElem?_map, Array.getElem?_modify]
  split
  · cases env.scopes[i]? <;> rfl
  · rfl

theorem shape_pop (h : env'.shape = env.push.shape) (hsize : 0 < env.scopes.size) :
    (env'.pop env.current).shape = env.shape := by
  obtain ⟨hparents, hcurrent⟩ := Prod.ext_iff.mp h
  have hindex : env'.current.index = env.scopes.size := congrArg ScopeId.index hcurrent
  refine Prod.ext (Array.ext_getElem? fun i => ?_) rfl
  have hparent := congrArg (·[i]?) hparents
  have hmax : max env.scopes.size 1 = env.scopes.size := by omega
  have hlength := size_of_shape h
  simp only [shape, push, Array.size_push, Array.getElem?_map, Array.getElem?_push] at hparent hlength
  simp only [shape, pop, hindex, hmax, Array.take_eq_extract, Array.getElem?_map, Array.getElem?_extract, hlength]
  by_cases hi : i < env.scopes.size
  · rw [if_neg (by omega)] at hparent
    rw [if_pos (by omega), Nat.zero_add, hparent]
  · rw [if_neg (by omega), Array.getElem?_eq_none (by omega)]

inductive Walk (scopes : Array Scope) : ScopeId → List ScopeId → Prop
  | root {id : ScopeId} {scope : Scope} :
      scopes[id.index]? = some scope → scope.parent = none → Walk scopes id [id]
  | step {id parent : ScopeId} {scope : Scope} {ids : List ScopeId} :
      scopes[id.index]? = some scope → scope.parent = some parent → Walk scopes parent ids →
      Walk scopes id (id :: ids)

theorem outward_eq_iff {scopes : Array Scope} {fuel : Nat} {id : ScopeId} {ids : List ScopeId} :
    outward scopes fuel id = (ids, none) ↔ Walk scopes id ids ∧ ids.length ≤ fuel := by
  constructor
  · intro h
    induction fuel generalizing id ids with
    | zero => cases h
    | succ fuel ih =>
      rw [outward] at h
      cases hs : scopes[id.index]? with
      | none =>
        rw [hs] at h
        cases h
      | some scope =>
        rw [hs] at h
        simp only at h
        cases hp : scope.parent with
        | none =>
          rw [hp] at h
          obtain ⟨rfl, -⟩ := Prod.mk.inj h
          exact ⟨.root hs hp, Nat.succ_le_succ (Nat.zero_le _)⟩
        | some parent =>
          rw [hp] at h
          obtain ⟨rfl, hnone⟩ := Prod.mk.inj h
          obtain ⟨walk, hlength⟩ := ih (Prod.ext rfl hnone)
          exact ⟨.step hs hp walk, Nat.succ_le_succ hlength⟩
  · rintro ⟨walk, hlength⟩
    induction walk generalizing fuel with
    | root hs hp =>
      obtain ⟨fuel, rfl⟩ := Nat.exists_eq_add_of_le' hlength
      rw [List.length_singleton, outward, hs]
      simp only [hp]
    | step hs hp _ ih =>
      obtain ⟨fuel, rfl⟩ := Nat.exists_eq_add_of_le' (Nat.le_trans (Nat.le_add_left 1 _) hlength)
      rw [outward, hs]
      simp only [hp, ih (Nat.le_of_succ_le_succ hlength)]

namespace Walk

variable {scopes : Array Scope} {id : ScopeId} {ids : List ScopeId}

theorem exists_scope (walk : Walk scopes id ids) : ∀ i ∈ ids, ∃ scope, scopes[i.index]? = some scope := by
  induction walk with
  | root hs _ => exact fun i hi => ⟨_, List.mem_singleton.mp hi ▸ hs⟩
  | step hs _ _ ih => exact List.forall_mem_cons.mpr ⟨⟨_, hs⟩, ih⟩

theorem unique (walk : Walk scopes id ids) {ids' : List ScopeId} (walk' : Walk scopes id ids') : ids = ids' := by
  induction walk generalizing ids' with
  | root hs hp =>
    cases walk' with
    | root => rfl
    | step hs' hp' =>
      cases hs.symm.trans hs'
      cases hp.symm.trans hp'
  | step hs hp _ ih =>
    cases walk' with
    | root hs' hp' =>
      cases hs.symm.trans hs'
      cases hp.symm.trans hp'
    | step hs' hp' walk' =>
      cases hs.symm.trans hs'
      cases hp.symm.trans hp'
      rw [ih walk']

theorem of_mem (walk : Walk scopes id ids) : ∀ i ∈ ids, ∃ ids', Walk scopes i ids' ∧ ids'.length ≤ ids.length := by
  induction walk with
  | root hs hp =>
    intro i hi
    obtain rfl := List.mem_singleton.mp hi
    exact ⟨_, .root hs hp, Nat.le_refl _⟩
  | step hs hp walk ih =>
    refine List.forall_mem_cons.mpr ⟨⟨_, .step hs hp walk, Nat.le_refl _⟩, fun i hi => ?_⟩
    obtain ⟨ids', walk', hlength⟩ := ih i hi
    exact ⟨ids', walk', Nat.le_succ_of_le hlength⟩

theorem head_notMem (walk : Walk scopes id (id :: ids)) : id ∉ ids := by
  intro hid
  cases walk with
  | root => cases hid
  | step hs hp rest =>
    obtain ⟨ids', walk', hlength⟩ := rest.of_mem id hid
    rw [← (Walk.step hs hp rest).unique walk'] at hlength
    exact absurd hlength (Nat.not_succ_le_self _)

theorem eq_cons (walk : Walk scopes id ids) : ∃ rest, ids = id :: rest := by
  cases walk with
  | root => exact ⟨[], rfl⟩
  | step => exact ⟨_, rfl⟩

theorem push {env : Environment} (walk : Walk env.scopes id ids) : Walk env.push.scopes id ids := by
  have kept {i : Nat} {scope : Scope} (h : env.scopes[i]? = some scope) : env.push.scopes[i]? = some scope := by
    rw [Environment.push, Array.getElem?_push, if_neg (Nat.ne_of_lt (Array.getElem?_eq_some_iff.mp h).1), h]
  induction walk with
  | root hs hp => exact .root (kept hs) hp
  | step hs hp _ ih => exact .step (kept hs) hp ih

end Walk

theorem Rooted.walk (h : env.Rooted) :
    Walk env.scopes env.current env.chain.1 ∧ env.chain.1.length ≤ env.scopes.size + 1 :=
  outward_eq_iff.mp (Prod.ext rfl h : env.chain = (env.chain.1, none))

theorem Rooted.chain_push (h : env.Rooted) : env.push.chain = (⟨env.scopes.size⟩ :: env.chain.1, none) := by
  obtain ⟨walk, hlength⟩ := h.walk
  have hlast : env.push.scopes[env.scopes.size]? = some ⟨[], some env.current⟩ := Array.getElem?_push_size
  have hsize : env.push.scopes.size = env.scopes.size + 1 := Array.size_push _
  refine outward_eq_iff.mpr ⟨.step hlast rfl walk.push, ?_⟩
  rw [hsize]
  exact Nat.succ_le_succ hlength

theorem Rooted.push (h : env.Rooted) : env.push.Rooted := by
  rw [Rooted, h.chain_push]

theorem Rooted.depth_eq (h : env.Rooted) : env.depth = .ok env.chain.1.length := by
  rw [depth, (Prod.ext rfl h : env.chain = (env.chain.1, none))]

theorem Rooted.size_pos (h : env.Rooted) : 0 < env.scopes.size := by
  refine Nat.pos_of_ne_zero fun hsize => ?_
  have hmissing : env.scopes[env.current.index]? = none := Array.getElem?_eq_none (by omega)
  rw [Rooted, chain, outward, hmissing] at h
  cases h

theorem Rooted.define_eq (h : env.Rooted) (name : String) (value : Value) :
    env.define name value = .ok (env.bindIn env.current name value) := by
  obtain ⟨walk, -⟩ := h.walk
  obtain ⟨rest, hrest⟩ := walk.eq_cons
  obtain ⟨scope, hscope⟩ := walk.exists_scope env.current (hrest ▸ List.mem_cons_self)
  rw [define, if_pos (Array.getElem?_eq_some_iff.mp hscope).1]

theorem size_pos_of_push (h : env.push.Rooted) : 0 < env.scopes.size := by
  refine Nat.pos_of_ne_zero fun hsize => ?_
  have hempty : env.scopes = #[] := Array.eq_empty_of_size_eq_zero hsize
  obtain ⟨scopes, ⟨_ | i⟩⟩ := env
  · obtain rfl := hempty
    cases h
  · obtain rfl := hempty
    cases h

end Environment

end Treewalk
