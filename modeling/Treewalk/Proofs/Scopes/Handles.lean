import Treewalk.Proofs.Scopes.Shape

namespace Treewalk

namespace Environment

variable {env env' : Environment}

def Present (env : Environment) : Prop :=
  env.current.index < env.scopes.size

instance : DecidablePred Present := fun env => inferInstanceAs (Decidable (env.current.index < env.scopes.size))

structure Descending (env : Environment) : Prop where
  root : ∃ scope, env.scopes[0]? = some scope ∧ scope.parent = none
  parent : ∀ i scope, env.scopes[i + 1]? = some scope → ∃ id, scope.parent = some id ∧ id.index < i + 1

structure Arrives (env : Environment) : Prop where
  walk : (∃ ids, Walk env.scopes env.current ids ∧ ids.getLast? = some .global) ∨ ¬ env.Present
  depth : env.depth ≠ .error .endless
  get : ∀ name line, env.get name line ≠ .error (.fault .endless)
  assign : ∀ name value line, env.assign name value line ≠ .error (.fault .endless)

theorem getElem?_of_shape (h : env'.shape = env.shape) {i : Nat} {scope : Scope} (hs : env'.scopes[i]? = some scope) :
    ∃ scope', env.scopes[i]? = some scope' ∧ scope'.parent = scope.parent := by
  have hparent := congrArg (·[i]?) (congrArg Prod.fst h)
  simp only [shape, Array.getElem?_map, hs, Option.map_some] at hparent
  exact Option.map_eq_some_iff.mp hparent.symm

theorem getElem?_pop_of_some {handle : ScopeId} {i : Nat} {scope : Scope}
    (h : (env.pop handle).scopes[i]? = some scope) : env.scopes[i]? = some scope := by
  simp only [pop, Array.take_eq_extract, Array.getElem?_extract, Nat.zero_add] at h
  split at h
  · exact h
  · cases h

namespace Descending

theorem initial : Descending initial where
  root := ⟨⟨[], none⟩, rfl, rfl⟩
  parent _ _ hs := by cases hs

theorem size_pos (h : env.Descending) : 0 < env.scopes.size := by
  obtain ⟨scope, hs, -⟩ := h.root
  exact (Array.getElem?_eq_some_iff.mp hs).1

theorem of_shape (h : env.Descending) (hshape : env'.shape = env.shape) : env'.Descending where
  root := by
    obtain ⟨scope, hs, hp⟩ := h.root
    obtain ⟨scope', hs', hp'⟩ := getElem?_of_shape hshape.symm hs
    exact ⟨scope', hs', hp'.trans hp⟩
  parent i scope hs := by
    obtain ⟨scope', hs', hp'⟩ := getElem?_of_shape hshape hs
    rw [← hp']
    exact h.parent i scope' hs'

theorem push (h : env.Descending) (hpresent : env.Present) : env.push.Descending where
  root := by
    obtain ⟨scope, hs, hp⟩ := h.root
    refine ⟨scope, ?_, hp⟩
    rw [Environment.push, Array.getElem?_push, if_neg (Nat.ne_of_lt h.size_pos), hs]
  parent i scope hs := by
    rw [Environment.push, Array.getElem?_push] at hs
    split at hs
    · next hi =>
      cases hs
      exact ⟨env.current, rfl, hi ▸ hpresent⟩
    · exact h.parent i scope hs

theorem present_of_push (h : env.Descending) (hpush : env.push.Descending) : env.Present := by
  obtain ⟨i, hi⟩ := Nat.exists_eq_add_one_of_ne_zero (Nat.ne_of_gt h.size_pos)
  have hnew : env.push.scopes[env.scopes.size]? = some ⟨[], some env.current⟩ := Array.getElem?_push_size
  rw [hi] at hnew
  obtain ⟨id, hid, hlt⟩ := hpush.parent i _ hnew
  cases hid
  rw [Present, hi]
  exact hlt

theorem pop (h : env.Descending) (handle : ScopeId) : (env.pop handle).Descending where
  root := by
    obtain ⟨scope, hs, hp⟩ := h.root
    refine ⟨scope, ?_, hp⟩
    have hsize := h.size_pos
    rw [Environment.pop, Array.take_eq_extract, Array.getElem?_extract, if_pos (by omega), hs]
  parent i scope hs := h.parent i scope (getElem?_pop_of_some hs)

-- Each step of a walk goes to an earlier scope, so the index bounds the walk.
theorem exists_walk (h : env.Descending) (i : Nat) (hi : i < env.scopes.size) :
    ∃ ids, Walk env.scopes ⟨i⟩ ids ∧ ids.getLast? = some .global ∧ ids.length ≤ i + 1 := by
  induction i using Nat.strongRecOn with
  | ind i ih =>
    cases i with
    | zero =>
      obtain ⟨scope, hs, hp⟩ := h.root
      exact ⟨[⟨0⟩], .root hs hp, rfl, Nat.le_refl 1⟩
    | succ i =>
      have hs := Array.getElem?_eq_getElem hi
      obtain ⟨⟨j⟩, hp, hlt⟩ := h.parent i _ hs
      obtain ⟨ids, walk, hlast, hlength⟩ := ih j hlt (Nat.lt_trans hlt hi)
      obtain ⟨rest, rfl⟩ := walk.eq_cons
      refine ⟨_, .step hs hp walk, hlast, ?_⟩
      exact Nat.succ_le_succ (Nat.le_trans hlength hlt)

theorem chain_eq (h : env.Descending) :
    (∃ ids, Walk env.scopes env.current ids ∧ ids.getLast? = some .global ∧ env.chain = (ids, none)) ∨
      ¬ env.Present ∧ env.chain = ([], some (.missing env.current)) := by
  by_cases hpresent : env.Present
  · obtain ⟨ids, walk, hlast, hlength⟩ := h.exists_walk env.current.index hpresent
    refine .inl ⟨ids, walk, hlast, outward_eq_iff.mpr ⟨walk, ?_⟩⟩
    rw [Present] at hpresent
    omega
  · refine .inr ⟨hpresent, ?_⟩
    rw [chain, outward, Array.getElem?_eq_none (Nat.le_of_not_lt hpresent)]

end Descending

theorem find_ne_endless (h : env.chain.2 ≠ some .endless) (name : String) (line : Nat) :
    env.find name line ≠ .error (.fault .endless) := by
  rcases hchain : env.chain with ⟨ids, fault⟩
  rw [hchain] at h
  simp only [find, resolve, hchain]
  cases ids.findSome? fun id => (env.binding? name id).map (id, ·) with
  | some found => simp
  | none =>
    cases fault with
    | none => simp
    | some fault => simpa using h

theorem Descending.arrives (h : env.Descending) : env.Arrives := by
  have hfault : env.chain.2 ≠ some .endless := by
    obtain ⟨ids, -, -, hchain⟩ | ⟨-, hchain⟩ := h.chain_eq <;> rw [hchain] <;> exact nofun
  have hfind {α : Type} (f : ScopeId × Value → α) (name : String) (line : Nat) :
      (env.find name line).map f ≠ .error (.fault .endless) := by
    have hne := find_ne_endless hfault name line
    cases hf : env.find name line with
    | ok found => exact nofun
    | error a =>
      rintro ⟨⟩
      exact hne hf
  constructor
  · obtain ⟨ids, walk, hlast, -⟩ | ⟨hgone, -⟩ := h.chain_eq
    · exact .inl ⟨ids, walk, hlast⟩
    · exact .inr hgone
  · unfold depth
    obtain ⟨ids, -, -, hchain⟩ | ⟨-, hchain⟩ := h.chain_eq <;> rw [hchain] <;> exact nofun
  · exact hfind _
  · exact fun name value line => hfind _ name line

end Environment

inductive Request where
  | define (name : String) (value : Value)
  | assign (name : String) (value : Value) (line : Nat)
  | get (name : String) (line : Nat)
  | push
  | current
  | pop (which : Nat)
  deriving DecidableEq

structure Handled where
  environment : Environment
  given : List ScopeId

namespace Handled

def initial : Handled :=
  ⟨.initial, []⟩

def updated (s : Handled) : Except Abort Environment → Handled
  | .ok env => { s with environment := env }
  | .error _ => s

def enter (traced : Bool) (s : Handled) : Handled :=
  if traced then
    match Environment.enter s.environment with
    | .ok (handle, _) env => ⟨env, s.given ++ [handle]⟩
    | .error _ env => { s with environment := env }
  else ⟨s.environment.push, s.given ++ [s.environment.current]⟩

def leave (traced : Bool) (s : Handled) (handle : ScopeId) : Handled :=
  if traced then
    match Environment.leave handle s.environment with
    | .ok _ env => { s with environment := env }
    | .error _ env => { s with environment := env }
  else { s with environment := s.environment.pop handle }

-- A scope can be left only for a handle that was given before.
def step (traced : Bool) (s : Handled) : Request → Handled
  | .define name value => s.updated (s.environment.define name value)
  | .assign name value line => s.updated (s.environment.assign name value line)
  | .get _ _ => s
  | .push => s.enter traced
  | .current => { s with given := s.given ++ [s.environment.current] }
  | .pop which =>
      match s.given[which]? with
      | some handle => s.leave traced handle
      | none => s

def after (traced : Bool) (requests : List Request) : Handled :=
  requests.foldl (step traced) initial

variable (traced : Bool) (s : Handled)

theorem shape_updated {s : Handled} {x : Except Abort Environment}
    (h : ∀ env, x = .ok env → env.shape = s.environment.shape) :
    (s.updated x).environment.shape = s.environment.shape := by
  cases x with
  | ok env => exact h env rfl
  | error => rfl

theorem environment_enter : (s.enter traced).environment = s.environment.push := by
  unfold enter
  split
  · unfold Environment.enter
    cases s.environment.push.depth <;> rfl
  · rfl

theorem environment_leave (handle : ScopeId) :
    (s.leave traced handle).environment = s.environment.pop handle ∨
      (s.leave traced handle).environment = s.environment := by
  unfold leave
  split
  · unfold Environment.leave
    cases s.environment.depth with
    | ok => exact .inl rfl
    | error => exact .inr rfl
  · exact .inl rfl

theorem step_cases (request : Request) :
    (request = .push ∧ (s.step traced request).environment = s.environment.push) ∨
      (request ≠ .push ∧ (s.step traced request).environment.shape = s.environment.shape) ∨
      request ≠ .push ∧ ∃ handle, (s.step traced request).environment = s.environment.pop handle := by
  cases request with
  | define name value =>
    refine .inr (.inl ⟨nofun, shape_updated fun env henv => ?_⟩)
    unfold Environment.define at henv
    split at henv
    · cases henv
      exact Environment.shape_bindIn ..
    · cases henv
  | assign name value line =>
    refine .inr (.inl ⟨nofun, shape_updated fun env henv => ?_⟩)
    unfold Environment.assign at henv
    cases hf : s.environment.find name line with
    | ok found =>
      rw [hf] at henv
      cases henv
      exact Environment.shape_bindIn ..
    | error =>
      rw [hf] at henv
      cases henv
  | get name line => exact .inr (.inl ⟨nofun, rfl⟩)
  | push => exact .inl ⟨rfl, environment_enter traced s⟩
  | current => exact .inr (.inl ⟨nofun, rfl⟩)
  | pop which =>
    cases hgiven : s.given[which]? with
    | none =>
      refine .inr (.inl ⟨nofun, ?_⟩)
      simp only [step, hgiven]
    | some handle =>
      simp only [step, hgiven]
      obtain hpop | hsame := environment_leave traced s handle
      · exact .inr (.inr ⟨nofun, handle, hpop⟩)
      · exact .inr (.inl ⟨nofun, congrArg Environment.shape hsame⟩)

variable {traced s}

theorem step_descending {request : Request} (h : s.environment.Descending)
    (hpush : request = .push → s.environment.Present) : (s.step traced request).environment.Descending := by
  obtain ⟨hrequest, heq⟩ | ⟨-, hshape⟩ | ⟨-, handle, heq⟩ := step_cases traced s request
  · rw [heq]
    exact h.push (hpush hrequest)
  · exact h.of_shape hshape
  · rw [heq]
    exact h.pop handle

theorem present_of_step (h : s.environment.Descending) (hstep : (s.step traced .push).environment.Descending) :
    s.environment.Present :=
  h.present_of_push (environment_enter traced s ▸ hstep)

theorem after_take_succ (requests : List Request) (n : Nat) :
    after traced (requests.take (n + 1)) =
      (requests[n]?).elim (after traced (requests.take n)) (step traced (after traced (requests.take n))) := by
  unfold after
  rw [List.take_add_one, List.foldl_append]
  cases requests[n]? <;> rfl

theorem after_descending {requests : List Request}
    (h : ∀ n, requests[n]? = some .push → (after traced (requests.take n)).environment.Present) (n : Nat) :
    (after traced (requests.take n)).environment.Descending := by
  induction n with
  | zero => exact .initial
  | succ n ih =>
    rw [after_take_succ]
    cases hrequest : requests[n]? with
    | none => exact ih
    | some request =>
      refine step_descending ih ?_
      rintro rfl
      exact h n hrequest

theorem parents_descend_iff (traced : Bool) (requests : List Request) :
    (∀ n, requests[n]? = some .push → (after traced (requests.take n)).environment.Present) ↔
      ∀ n, (after traced (requests.take n)).environment.Descending ∧
        (after traced (requests.take n)).environment.Arrives := by
  constructor
  · intro h n
    have hdescending := after_descending h n
    exact ⟨hdescending, hdescending.arrives⟩
  · intro h n hrequest
    have hnext := (h (n + 1)).1
    rw [after_take_succ, hrequest] at hnext
    exact present_of_step (h n).1 hnext

def strayRequests : List Request :=
  [.push, .current, .push, .pop 0, .pop 0, .pop 1, .get "x" 1, .pop 0, .push, .define "x" .nil]

theorem parents_descend_iff_stray :
    (∀ n, strayRequests[n]? = some .push → (after false (strayRequests.take n)).environment.Present) ∧
      ¬ (after false (strayRequests.take 6)).environment.Present ∧
      (after false strayRequests).environment.Descending ∧ (after false strayRequests).environment.Arrives := by
  have hpresent : ∀ n, strayRequests[n]? = some .push → (after false (strayRequests.take n)).environment.Present := by
    have hbounded : ∀ n < strayRequests.length, strayRequests[n]? = some .push →
        (after false (strayRequests.take n)).environment.Present := by decide +kernel
    exact fun n hn => hbounded n (List.getElem?_eq_some_iff.mp hn).1 hn
  refine ⟨hpresent, by decide +kernel, ?_⟩
  exact (parents_descend_iff false strayRequests).mp hpresent strayRequests.length

def danglingRequests : List Request :=
  [.push, .push, .current, .pop 0, .pop 0, .pop 2, .push, .push, .define "y" .nil, .push, .pop 1]

theorem environment_dangling : (after false danglingRequests).environment =
    ⟨#[⟨[], none⟩, ⟨[], some ⟨2⟩⟩, ⟨[("y", .nil)], some ⟨1⟩⟩], ⟨1⟩⟩ := by
  decide +kernel

theorem scopes_enclose_each_other :
    ¬ (after false danglingRequests).environment.Descending ∧ ¬ (after false danglingRequests).environment.Arrives ∧
      (after false danglingRequests).environment.get "y" 1 = .ok .nil ∧
      ∀ fuel, (Environment.outward (after false danglingRequests).environment.scopes fuel
        (after false danglingRequests).environment.current).2 = some .endless := by
  rw [environment_dangling]
  refine ⟨fun h => ?_, fun h => h.depth rfl, rfl, fun fuel => ?_⟩
  · obtain ⟨id, hid, hlt⟩ := h.parent 0 _ rfl
    cases hid
    exact absurd hlt (by decide)
  · have hround : ∀ fuel, ∀ i ∈ [1, 2], (Environment.outward
        #[⟨[], none⟩, ⟨[], some ⟨2⟩⟩, ⟨[("y", .nil)], some ⟨1⟩⟩] fuel ⟨i⟩).2 = some .endless := by
      intro fuel
      induction fuel with
      | zero => exact fun _ _ => rfl
      | succ fuel ih =>
        intro i hi
        obtain rfl | rfl : i = 1 ∨ i = 2 := by simpa using hi
        · exact ih 2 (by simp)
        · exact ih 1 (by simp)
    exact hround fuel 1 (by simp)

end Handled

end Treewalk
