import Mathlib.Data.Finset.Lattice.Lemmas
import Mathlib.Data.Finset.SDiff
import Mathlib.Data.List.Find
import Treewalk.Proofs.Execution.Agreement
import Treewalk.Proofs.Execution.Blocks
import Treewalk.Proofs.Scopes.Names

namespace Treewalk

open Machine

def Expr.targets : Expr → Finset String
  | .literal .. | .variable .. => ∅
  | .group e _ | .unary _ e _ => e.targets
  | .binary _ l r _ => l.targets ∪ r.targets
  | .assign x e _ => e.targets ∪ {x}

namespace Statement

def declared : Statement → Finset String
  | .declare x _ _ => {x}
  | .expression .. | .print .. | .block .. => ∅

mutual

def freeTargets : Statement → Finset String
  | .expression e _ | .print e _ => e.targets
  | .declare _ initial _ => initial.elim ∅ Expr.targets
  | .block body _ => freeTargetsAll body

def freeTargetsAll : List Statement → Finset String
  | [] => ∅
  | s :: ss => s.freeTargets ∪ (freeTargetsAll ss \ s.declared)

end

def declaredAll : List Statement → Finset String
  | [] => ∅
  | s :: ss => s.declared ∪ declaredAll ss

end Statement

namespace Environment

variable {env env' env'' : Environment} {x : String} {id : ScopeId}

def nearest? (env : Environment) (x : String) : Option ScopeId :=
  env.chain.1.find? fun id => x ∈ env.namesAt id

theorem lt_of_mem_outward {scopes : Array Scope} {fuel : Nat} {start : ScopeId}
    (h : id ∈ (outward scopes fuel start).1) : id.index < scopes.size := by
  induction fuel generalizing start with
  | zero => cases h
  | succ fuel ih =>
    rw [outward] at h
    cases hs : scopes[start.index]? with
    | none =>
      rw [hs] at h
      cases h
    | some scope =>
      have hstart := (Array.getElem?_eq_some_iff.mp hs).1
      rw [hs] at h
      dsimp only at h
      cases hp : scope.parent with
      | none =>
        rw [hp] at h
        exact List.mem_singleton.mp h ▸ hstart
      | some parent =>
        rw [hp] at h
        obtain rfl | h := List.mem_cons.mp h
        · exact hstart
        · exact ih h

theorem lt_of_mem_namesAt (h : x ∈ env.namesAt id) : id.index < env.scopes.size := by
  rw [namesAt] at h
  by_contra hid
  rw [Array.getElem?_eq_none (Nat.le_of_not_lt hid)] at h
  exact absurd h (Finset.notMem_empty x)

theorem nearest?_current (h : x ∈ env.namesAt env.current) : env.nearest? x = some env.current := by
  obtain ⟨rest, hrest⟩ : ∃ rest, env.chain.1 = env.current :: rest := by
    rw [chain, outward, Array.getElem?_eq_getElem (lt_of_mem_namesAt h)]
    dsimp only
    split
    · exact ⟨[], rfl⟩
    · exact ⟨_, rfl⟩
  rw [nearest?, hrest]
  exact List.find?_cons_of_pos (decide_eq_true h)

theorem nearest?_of_find {line : Nat} {found : ScopeId × Value} (h : env.find x line = .ok found) :
    env.nearest? x = some found.1 := by
  have nearest {ids : List ScopeId} (hids : ids.findSome? (fun id => (env.binding? x id).map (id, ·)) = some found) :
      ids.find? (fun id => x ∈ env.namesAt id) = some found.1 := by
    induction ids with
    | nil => cases hids
    | cons id ids ih =>
      rw [List.findSome?_cons] at hids
      cases hb : env.binding? x id with
      | none =>
        rw [hb] at hids
        have hx : ¬ x ∈ env.namesAt id := by
          rw [← isSome_binding?, hb]
          exact Bool.false_ne_true
        rw [List.find?_cons_of_neg (by simpa using hx)]
        exact ih hids
      | some v =>
        rw [hb] at hids
        cases hids
        have hx : x ∈ env.namesAt id := by
          rw [← isSome_binding?, hb]
          rfl
        exact List.find?_cons_of_pos (decide_eq_true hx)
  rw [find, resolve] at h
  dsimp only at h
  refine nearest ?_
  generalize env.chain.1.findSome? (fun id => (env.binding? x id).map (id, ·)) = located at h ⊢
  cases located with
  | some located =>
    cases h
    rfl
  | none => cases hfault : env.chain.2 <;> rw [hfault] at h <;> cases h

theorem nearest?_congr (hshape : env'.shape = env.shape)
    (h : ∀ id, id.index < env.scopes.size → (x ∈ env'.namesAt id ↔ x ∈ env.namesAt id)) :
    env'.nearest? x = env.nearest? x := by
  rw [nearest?, nearest?, chain_of_shape hshape]
  refine List.find?_congr fun id hid => ?_
  rw [decide_eq_decide]
  exact h id (lt_of_mem_outward hid)

theorem binding?_bindIn {y : String} {other : ScopeId} (h : ¬ (y = x ∧ other = id)) (v : Value) :
    (env.bindIn id x v).binding? y other = env.binding? y other := by
  rw [binding?, binding?, bindIn, Array.getElem?_modify]
  by_cases hid : id.index = other.index
  · have hy : y ≠ x := fun hy => h ⟨hy, congrArg ScopeId.mk hid.symm⟩
    rw [if_pos hid]
    cases env.scopes[other.index]? with
    | none => rfl
    | some scope => exact scope.get?_insert_of_ne v hy
  · rw [if_neg hid]

theorem mem_namesAt_bindIn {y : String} {other : ScopeId} (hother : other.index < env.scopes.size) (v : Value) :
    y ∈ (env.bindIn id x v).namesAt other ↔ y ∈ env.namesAt other ∨ y = x ∧ other = id := by
  by_cases h : other = id
  · subst h
    rw [namesAt_bindIn_self (Array.getElem?_eq_getElem hother), Finset.mem_insert, or_comm, and_iff_left rfl]
  · rw [namesAt_bindIn_of_ne h]
    exact ⟨.inl, fun hy => hy.resolve_right fun hy => h hy.2⟩

theorem mem_of_nearest? (h : env.nearest? x = some id) : x ∈ env.namesAt id :=
  of_decide_eq_true (List.find?_some (p := fun id => decide (x ∈ env.namesAt id)) h)

theorem namesAt_congr (h : env'.scopes[id.index]? = env.scopes[id.index]?) : env'.namesAt id = env.namesAt id := by
  rw [namesAt, namesAt, h]

theorem binding?_congr (h : env'.scopes[id.index]? = env.scopes[id.index]?) :
    env'.binding? x id = env.binding? x id := by
  rw [binding?, binding?, h]

theorem getElem?_push {i : Nat} (hi : i < env.scopes.size) : env.push.scopes[i]? = env.scopes[i]? := by
  rw [push, Array.getElem?_push, if_neg (Nat.ne_of_lt hi)]

theorem getElem?_pop (hshape : env'.shape = env.push.shape) {i : Nat} (hi : i < env.scopes.size) :
    (env'.pop env.current).scopes[i]? = env'.scopes[i]? := by
  have hcurrent : env'.current.index = env.scopes.size := congrArg (ScopeId.index ∘ Prod.snd) hshape
  have hsize : env'.scopes.size = env.scopes.size + 1 := (size_of_shape hshape).trans (Array.size_push _)
  rw [pop, hcurrent, Array.take_eq_extract, Array.getElem?_extract, if_pos (by omega), Nat.zero_add]

theorem Rooted.nearest?_push (h : env.Rooted) : env.push.nearest? x = env.nearest? x := by
  have hnew : env.push.scopes[env.scopes.size]? = some ⟨[], some env.current⟩ := Array.getElem?_push_size
  have hempty : x ∉ env.push.namesAt ⟨env.scopes.size⟩ := by
    rw [namesAt, hnew]
    exact Finset.notMem_empty x
  rw [nearest?, h.chain_push, List.find?_cons_of_neg (by simpa using hempty)]
  refine List.find?_congr fun id hid => ?_
  rw [namesAt_congr (getElem?_push (lt_of_mem_outward hid))]

theorem Walk.of_push {ids : List ScopeId} (walk : Walk env.push.scopes id ids) (hnew : env.push.current ∉ ids) :
    Walk env.scopes id ids := by
  have kept {i : ScopeId} {scope : Scope} (hi : i ≠ env.push.current)
      (hs : env.push.scopes[i.index]? = some scope) : env.scopes[i.index]? = some scope := by
    rw [Environment.push, Array.getElem?_push, if_neg fun heq => hi (congrArg ScopeId.mk heq)] at hs
    exact hs
  induction walk with
  | root hs hp => exact .root (kept (fun h => hnew (h ▸ List.mem_cons_self)) hs) hp
  | step hs hp _ ih =>
    obtain ⟨hid, hrest⟩ := not_or.mp (mt List.mem_cons.mpr hnew)
    exact .step (kept (fun h => hid h.symm) hs) hp (ih hrest)

-- A walk that starts in the new scope goes on from the current one and never comes back.
theorem Rooted.of_push (h : env.push.Rooted) : env.Rooted := by
  obtain ⟨walk, hlength⟩ := h.walk
  have hlast : env.push.scopes[env.push.current.index]? = some ⟨[], some env.current⟩ := Array.getElem?_push_size
  generalize env.push.chain.1 = ids at walk hlength
  cases walk with
  | root hs hp =>
    cases hlast.symm.trans hs
    cases hp
  | @step _ parent scope ids hs hp inner =>
    have hnew : env.push.current ∉ ids := (Walk.step hs hp inner).head_notMem
    cases hlast.symm.trans hs
    cases hp
    have hsize : env.push.scopes.size = env.scopes.size + 1 := Array.size_push _
    rw [List.length_cons, hsize] at hlength
    have hchain := outward_eq_iff.mpr ⟨inner.of_push hnew, Nat.le_of_succ_le_succ hlength⟩
    exact congrArg Prod.snd hchain

structure ConfinedTo (declared targets : Finset String) (env env' : Environment) : Prop where
  parent : ∀ (i : Nat) (scope : Scope), env.scopes[i]? = some scope →
    ∃ scope' : Scope, env'.scopes[i]? = some scope' ∧ scope'.parent = scope.parent
  kept : ∀ id : ScopeId, env.namesAt id ⊆ env'.namesAt id
  gained : ∀ (id : ScopeId) (x : String), id.index < env.scopes.size → x ∈ env'.namesAt id →
    x ∈ env.namesAt id ∨ x ∈ declared ∧ id = env.current
  value : ∀ (id : ScopeId) (x : String), id.index < env.scopes.size → env'.binding? x id ≠ env.binding? x id →
    x ∈ declared ∧ id = env.current ∨ x ∈ targets ∧ env.nearest? x = some id

namespace ConfinedTo

variable {declared declaredNext targets targetsNext : Finset String}

theorem refl (env : Environment) : ConfinedTo declared targets env env where
  parent _ scope h := ⟨scope, h, rfl⟩
  kept _ := Finset.Subset.refl _
  gained _ _ _ h := .inl h
  value _ _ _ h := absurd rfl h

theorem mono (h : ConfinedTo declared targets env env') (hd : declared ⊆ declaredNext) (ht : targets ⊆ targetsNext) :
    ConfinedTo declaredNext targetsNext env env' where
  parent := h.parent
  kept := h.kept
  gained id x hid hx := (h.gained id x hid hx).imp_right (And.imp_left (@hd x))
  value id x hid hx := (h.value id x hid hx).imp (And.imp_left (@hd x)) (And.imp_left (@ht x))

theorem mem_namesAt_iff (h : ConfinedTo declared targets env env') {x : String} (hx : x ∉ declared) {id : ScopeId}
    (hid : id.index < env.scopes.size) : x ∈ env'.namesAt id ↔ x ∈ env.namesAt id :=
  ⟨fun hx' => (h.gained id x hid hx').resolve_right fun hd => hx hd.1, fun hx' => h.kept id hx'⟩

-- What was declared first hides outer bindings from the assignments that come second.
theorem trans (h : ConfinedTo declared targets env env') (h' : ConfinedTo declaredNext targetsNext env' env'')
    (hshape : env'.shape = env.shape) (hd : declared ⊆ env'.namesAt env'.current) :
    ConfinedTo (declared ∪ declaredNext) (targets ∪ (targetsNext \ declared)) env env'' := by
  have hcurrent : env'.current = env.current := congrArg Prod.snd hshape
  have hsize : env'.scopes.size = env.scopes.size := size_of_shape hshape
  refine ⟨fun i scope hs => ?_, fun id => (h.kept id).trans (h'.kept id), fun id x hid hx => ?_,
    fun id x hid hx => ?_⟩
  · obtain ⟨scope', hs', hp⟩ := h.parent i scope hs
    obtain ⟨scope'', hs'', hp'⟩ := h'.parent i scope' hs'
    exact ⟨scope'', hs'', hp'.trans hp⟩
  · rcases h'.gained id x (hsize ▸ hid) hx with hx | ⟨hxd, rfl⟩
    · exact (h.gained id x hid hx).imp_right (And.imp_left (Finset.mem_union_left _))
    · exact .inr ⟨Finset.mem_union_right _ hxd, hcurrent⟩
  · by_cases heq : env''.binding? x id = env'.binding? x id
    · rw [heq] at hx
      exact (h.value id x hid hx).imp (And.imp_left (Finset.mem_union_left _))
        (And.imp_left (Finset.mem_union_left _))
    · rcases h'.value id x (hsize ▸ hid) heq with ⟨hxd, rfl⟩ | ⟨hxt, hnearest⟩
      · exact .inl ⟨Finset.mem_union_right _ hxd, hcurrent⟩
      · by_cases hxd : x ∈ declared
        · rw [nearest?_current (hd hxd)] at hnearest
          cases hnearest
          exact .inl ⟨Finset.mem_union_left _ hxd, hcurrent⟩
        · rw [nearest?_congr hshape fun _ hid => h.mem_namesAt_iff hxd hid] at hnearest
          exact .inr ⟨Finset.mem_union_right _ (Finset.mem_sdiff.mpr ⟨hxt, hxd⟩), hnearest⟩

theorem bindIn {x : String} {id : ScopeId}
    (h : x ∈ declared ∧ id = env.current ∨ x ∈ targets ∧ env.nearest? x = some id) (v : Value) :
    ConfinedTo declared targets env (env.bindIn id x v) where
  parent i scope hs := by
    rw [Environment.bindIn, Array.getElem?_modify]
    split
    · exact ⟨scope.insert x v, by rw [hs]; rfl, rfl⟩
    · exact ⟨scope, hs, rfl⟩
  kept other y hy := (mem_namesAt_bindIn (lt_of_mem_namesAt hy) v).mpr (.inl hy)
  gained other y hother hy := by
    rcases (mem_namesAt_bindIn hother v).mp hy with hy | ⟨rfl, rfl⟩
    · exact .inl hy
    · exact h.symm.imp_left fun hnearest => mem_of_nearest? hnearest.2
  value other y hother hy := by
    have hsame : y = x ∧ other = id := by
      by_contra hne
      exact hy (binding?_bindIn hne v)
    obtain ⟨rfl, rfl⟩ := hsame
    exact h

theorem push (env : Environment) : ConfinedTo declared targets env env.push where
  parent i scope hs := ⟨scope, by rw [getElem?_push (Array.getElem?_eq_some_iff.mp hs).1, hs], rfl⟩
  kept id x hx := namesAt_congr (getElem?_push (lt_of_mem_namesAt hx)) ▸ hx
  gained id x hid hx := .inl (namesAt_congr (getElem?_push hid) ▸ hx)
  value id x hid hx := absurd (binding?_congr (getElem?_push hid)) hx

-- The names of the block go with its scope, and nothing in it hides what was not declared there.
theorem pop (hroot : env.Rooted) (hshape : env'.shape = env.push.shape)
    (h : ConfinedTo declared targets env.push env') :
    ConfinedTo ∅ targets env (env'.pop env.current) := by
  have hlater {id : ScopeId} (hid : id.index < env.scopes.size) : id.index < env.push.scopes.size := by
    rw [Environment.push, Array.size_push]
    omega
  have hother {id : ScopeId} (hid : id.index < env.scopes.size) : ¬ id = env.push.current := by
    rintro rfl
    exact absurd hid (Nat.lt_irrefl _)
  refine ⟨fun i scope hs => ?_, fun id x hx => ?_, fun id x hid hx => ?_, fun id x hid hx => ?_⟩
  · have hi := (Array.getElem?_eq_some_iff.mp hs).1
    rw [getElem?_pop hshape hi]
    exact h.parent i scope ((getElem?_push hi).trans hs)
  · have hid := lt_of_mem_namesAt hx
    rw [namesAt_congr (getElem?_pop hshape hid)]
    exact h.kept id (namesAt_congr (getElem?_push hid) ▸ hx)
  · rw [namesAt_congr (getElem?_pop hshape hid)] at hx
    have hx' := (h.gained id x (hlater hid) hx).resolve_right fun hd => hother hid hd.2
    exact .inl (namesAt_congr (getElem?_push hid) ▸ hx')
  · rw [binding?_congr (getElem?_pop hshape hid), ← binding?_congr (getElem?_push hid)] at hx
    obtain ⟨hxt, hnearest⟩ := (h.value id x (hlater hid) hx).resolve_left fun hd => hother hid hd.2
    exact .inr ⟨hxt, hroot.nearest?_push ▸ hnearest⟩

end ConfinedTo

end Environment

section Touches

variable {W α β : Type}

inductive Touched (declared targets : Finset String) (env : Environment) :
    EStateM.Result Abort (Machine W) α → Prop
  | ok {a : α} {m : Machine W} :
      m.environment.shape = env.shape → declared ⊆ m.environment.namesAt m.environment.current →
      env.ConfinedTo declared targets m.environment → Touched declared targets env (.ok a m)
  | error {stop : Abort} {m : Machine W} :
      (env.Rooted → m.environment.shape = env.shape) → env.ConfinedTo declared targets m.environment →
      Touched declared targets env (.error stop m)

def Touches (declared targets : Finset String) (act : Exec W α) : Prop :=
  ∀ m, Touched declared targets m.environment (act m)

namespace Touches

variable {declared declaredNext targets targetsNext : Finset String}

theorem quiet {act : Exec W α} (h : ∀ m, match act m with
    | .ok _ n | .error _ n => n.environment = m.environment) : Touches ∅ targets act := by
  intro m
  have hm := h m
  cases hact : act m with
  | ok a n =>
    rw [hact] at hm
    dsimp only at hm
    exact .ok (by rw [hm]) (Finset.empty_subset _) (by rw [hm]; exact .refl _)
  | error stop n =>
    rw [hact] at hm
    dsimp only at hm
    exact .error (fun _ => by rw [hm]) (by rw [hm]; exact .refl _)

theorem bind {act : Exec W α} {next : α → Exec W β} (h : Touches declared targets act)
    (hnext : ∀ a, Touches declaredNext targetsNext (next a)) :
    Touches (declared ∪ declaredNext) (targets ∪ (targetsNext \ declared)) (act >>= next) := by
  intro m
  have hact := h m
  simp only [Bind.bind, EStateM.bind]
  generalize act m = r at hact
  cases hact with
  | @ok a n hshape hd hn =>
    have hlast := hnext a n
    dsimp only
    generalize next a n = r' at hlast
    cases hlast with
    | @ok _ k hshape' hd' hk =>
      have hcurrent : k.environment.current = n.environment.current := congrArg Prod.snd hshape'
      refine .ok (hshape'.trans hshape) (Finset.union_subset ?_ hd') (hn.trans hk hshape hd)
      rw [hcurrent]
      exact hd.trans (hk.kept _)
    | error hshape' hk =>
      exact .error (fun hroot => (hshape' (hroot.of_shape hshape)).trans hshape) (hn.trans hk hshape hd)
  | error hshape hn => exact .error hshape (hn.mono Finset.subset_union_left Finset.subset_union_left)

theorem mono {act : Exec W α} (h : Touches declared targets act) (ht : targets ⊆ targetsNext) :
    Touches declared targetsNext act := by
  intro m
  have hact := h m
  generalize act m = r at hact
  cases hact with
  | ok hshape hd hn => exact .ok hshape hd (hn.mono (Finset.Subset.refl _) ht)
  | error hshape hn => exact .error hshape (hn.mono (Finset.Subset.refl _) ht)

theorem seq {act : Exec W α} {next : α → Exec W β} (h : Touches ∅ targets act)
    (hnext : ∀ a, Touches declared targets (next a)) : Touches declared targets (act >>= next) := by
  have hbind := h.bind hnext
  rwa [Finset.empty_union, Finset.sdiff_empty, Finset.union_self] at hbind

theorem raising (line : Nat) (result : Except Cause Value) :
    Touches ∅ targets (onEnvironment (raiseOn line result) : Exec W Value) :=
  quiet fun m => by cases result <;> rfl

theorem reading (x : String) (line : Nat) : Touches ∅ targets (reading x line : Exec W Value) := by
  refine quiet fun m => ?_
  rw [reading_apply]
  cases m.environment.get x line <;> rfl

theorem printLine [Sink W] (text : String) (line : Nat) : Touches ∅ targets (printLine text line : Exec W Unit) := by
  refine quiet fun m => ?_
  unfold Machine.printLine
  obtain ⟨output, _ | reason⟩ := Sink.write m.output (text ++ "\n").toUTF8 <;> rfl

theorem assigning {x : String} (hx : x ∈ targets) (line : Nat) (v : Value) :
    Touches ∅ targets (assigning x line v : Exec W Value) := by
  intro m
  rw [assigning_apply, Environment.assign]
  cases hfind : m.environment.find x line with
  | ok found =>
    have hnearest := Environment.nearest?_of_find hfind
    exact .ok (Environment.shape_bindIn ..) (Finset.empty_subset _) (.bindIn (.inr ⟨hx, hnearest⟩) v)
  | error stop => exact .error (fun _ => rfl) (.refl _)

theorem declaring (x : String) (line : Nat) (v : Value) :
    Touches {x} targets (declaring x line v : Exec W Unit) := by
  intro m
  rw [declaring_apply, Environment.define]
  by_cases hcurrent : m.environment.current.index < m.environment.scopes.size
  · rw [if_pos hcurrent]
    refine .ok (Environment.shape_bindIn ..) ?_ (.bindIn (.inl ⟨Finset.mem_singleton_self x, rfl⟩) v)
    rw [Finset.singleton_subset_iff]
    exact (Environment.mem_namesAt_bindIn hcurrent v).mpr (.inr ⟨rfl, rfl⟩)
  · rw [if_neg hcurrent]
    exact .error (fun _ => rfl) (.refl _)

theorem inNewScope {act : Exec W Unit} (h : Touches declared targets act) :
    Touches ∅ targets (inNewScope act) := by
  intro m
  by_cases hroot : m.environment.push.Rooted
  · obtain ⟨log, hentering⟩ := entering_of_rooted hroot
    have hact := h ⟨m.environment.push, m.output, log⟩
    cases hr : act ⟨m.environment.push, m.output, log⟩ with
    | ok _ n =>
      rw [hr] at hact
      cases hact with
      | ok hshape _ hn =>
        obtain ⟨log', hscope⟩ := inNewScope_ok hentering hr (hroot.of_shape hshape)
        rw [hscope]
        exact .ok (Environment.shape_pop hshape (Environment.size_pos_of_push hroot)) (Finset.empty_subset _)
          (hn.pop hroot.of_push hshape)
    | error stop n =>
      rw [hr] at hact
      cases hact with
      | error hshape hn =>
        obtain ⟨log', hscope⟩ := inNewScope_stopped hentering hr (hroot.of_shape (hshape hroot))
        rw [hscope]
        exact .error (fun _ => Environment.shape_pop (hshape hroot) (Environment.size_pos_of_push hroot))
          (hn.pop hroot.of_push (hshape hroot))
  · obtain ⟨f, hentering⟩ := entering_of_not_rooted hroot
    rw [inNewScope_of_error hentering]
    exact .error (fun h => absurd h.push hroot) (.push _)

theorem eval (e : Expr) : Touches ∅ e.targets (onEnvironment e.eval : Exec W Value) := by
  induction e with
  | literal v line => exact quiet fun _ => rfl
  | group e line ih => exact ih
  | unary op e line ih =>
    rw [Expr.eval, onEnvironment_bind]
    exact ih.seq fun v => raising line _
  | binary op l r line ihl ihr =>
    simp only [Expr.eval, onEnvironment_bind]
    exact (ihl.mono Finset.subset_union_left).seq fun a =>
      (ihr.mono Finset.subset_union_right).seq fun b => raising line _
  | «variable» x line => exact reading x line
  | assign x e line ih =>
    rw [Expr.eval, onEnvironment_bind]
    exact (ih.mono Finset.subset_union_left).seq fun v =>
      assigning (Finset.mem_union_right _ (Finset.mem_singleton_self x)) line v

end Touches

end Touches

namespace Statement

variable {W : Type} [Sink W]

mutual

theorem exec_touches : (s : Statement) → Touches s.declared s.freeTargets (s.exec : Exec W Unit)
  | .expression e line => by
    rw [exec]
    exact (Touches.quiet fun _ => rfl).seq fun _ => (Touches.eval e).seq fun _ => .quiet fun _ => rfl
  | .print e line => by
    rw [exec]
    exact (Touches.eval e).seq fun v => .printLine v.text line
  | .declare x none line => by
    rw [exec]
    exact (Touches.quiet fun _ => rfl).seq fun v => .declaring x line v
  | .declare x (some e) line => by
    rw [exec]
    exact (Touches.eval e).seq fun v => .declaring x line v
  | .block body line => by
    rw [exec]
    exact (execAll_touches body).inNewScope

theorem execAll_touches :
    (ss : List Statement) → Touches (declaredAll ss) (freeTargetsAll ss) (execAll ss : Exec W Unit)
  | [] => .quiet fun _ => rfl
  | s :: ss => by
    rw [execAll]
    exact (exec_touches s).bind fun _ => execAll_touches ss

end

theorem exec_confined (s : Statement) (m : Machine W) :
    m.environment.ConfinedTo s.declared s.freeTargets (Effect.ofExec (s.exec m)).environment := by
  have htouched := exec_touches s m
  generalize s.exec m = r at htouched
  cases htouched with
  | ok _ _ h => exact h
  | error _ h => exact h

example : (block [.expression (.assign "x" (.literal .nil 1) 1) 1, .declare "x" none 2, .declare "y" none 2,
    .block [.expression (.assign "y" (.assign "z" (.literal .nil 3) 3) 3) 3] 4] 5).freeTargets = {"x", "z"} := by
  decide

end Statement

end Treewalk
