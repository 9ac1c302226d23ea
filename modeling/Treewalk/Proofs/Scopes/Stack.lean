import Mathlib.Data.Finmap
import Treewalk.Proofs.Scopes.Chain

namespace Treewalk

abbrev Frame := Finmap fun _ : String => Value

def Scope.frame (s : Scope) : Frame :=
  (s.bindings.map fun b => (⟨b.1, b.2⟩ : Sigma fun _ : String => Value)).toFinmap

inductive Stack where
  | global (f : Frame)
  | inner (f : Frame) (outer : Stack)

inductive Operation where
  | define (name : String) (value : Value)
  | get (name : String) (line : Nat)
  | assign (name : String) (value : Value) (line : Nat)
  | enter
  | leave

inductive Answer where
  | done
  | value (v : Value)
  | failed (a : Abort)

namespace Stack

def frames : Stack → List Frame
  | global f => [f]
  | inner f outer => f :: outer.frames

def lookup (name : String) : Stack → Option Value
  | global f => f.lookup name
  | inner f outer => f.lookup name <|> outer.lookup name

def define (name : String) (value : Value) : Stack → Stack
  | global f => global (f.insert name value)
  | inner f outer => inner (f.insert name value) outer

def assign? (name : String) (value : Value) : Stack → Option Stack
  | global f => if name ∈ f then some (global (f.insert name value)) else none
  | inner f outer =>
      if name ∈ f then some (inner (f.insert name value) outer)
      else (outer.assign? name value).map (inner f)

def pop? : Stack → Option Stack
  | global _ => none
  | inner _ outer => some outer

def step (st : Stack) : Operation → Option (Answer × Stack)
  | .define name value => some (.done, st.define name value)
  | .get name line => some ((st.lookup name).elim (.failed (.undefined name line)) .value, st)
  | .assign name value line =>
      some ((st.assign? name value).elim (.failed (.undefined name line), st) (.done, ·))
  | .enter => some (.done, inner ∅ st)
  | .leave => st.pop?.map (.done, ·)

end Stack

structure HandleStack where
  environment : Environment
  handles : List ScopeId

namespace HandleStack

def initial : HandleStack :=
  ⟨.initial, []⟩

def answer (s : HandleStack) : Except Abort Environment → Answer × HandleStack
  | .ok env => (.done, ⟨env, s.handles⟩)
  | .error a => (.failed a, s)

-- A scope is left with the handle that entering it gave, so there is nothing to leave without one.
def step (s : HandleStack) : Operation → Option (Answer × HandleStack)
  | .define name value => some (s.answer (s.environment.define name value))
  | .get name line =>
      match s.environment.get name line with
      | .ok v => some (.value v, s)
      | .error a => some (.failed a, s)
  | .assign name value line => some (s.answer (s.environment.assign name value line))
  | .enter =>
      match Environment.enter s.environment with
      | .ok (handle, _) env => some (.done, ⟨env, handle :: s.handles⟩)
      | .error a env => some (.failed a, ⟨env, s.handles⟩)
  | .leave =>
      match s.handles with
      | [] => none
      | handle :: handles =>
          match Environment.leave handle s.environment with
          | .ok _ env => some (.done, ⟨env, handles⟩)
          | .error a env => some (.failed a, ⟨env, handles⟩)

end HandleStack

def Operation.run {σ : Type} (step : σ → Operation → Option (Answer × σ)) :
    σ → List Operation → Option (List Answer × σ)
  | s, [] => some ([], s)
  | s, op :: ops =>
      (step s op).bind fun x => (run step x.2 ops).map fun y => (x.1 :: y.1, y.2)

namespace Scope

theorem lookup_frame (s : Scope) (name : String) : s.frame.lookup name = s.get? name := by
  rw [frame, Finmap.dlookup_list_toFinmap, get?]
  induction s.bindings with
  | nil => rfl
  | cons b bs ih =>
      obtain ⟨key, v⟩ := b
      by_cases h : name = key
      · subst h
        rw [List.lookup_cons_self]
        exact List.dlookup_cons_eq ..
      · rw [List.lookup_cons, beq_eq_false_iff_ne.mpr h, ← ih]
        exact List.dlookup_cons_ne _ (⟨key, v⟩ : Sigma fun _ : String => Value) h

theorem mem_frame {s : Scope} {name : String} {v : Value} (h : s.get? name = some v) :
    name ∈ s.frame :=
  Finmap.mem_of_lookup_eq_some ((lookup_frame s name).trans h)

theorem notMem_frame {s : Scope} {name : String} (h : s.get? name = none) : name ∉ s.frame :=
  Finmap.lookup_eq_none.mp ((lookup_frame s name).trans h)

theorem frame_insert (s : Scope) (name : String) (value : Value) :
    (s.insert name value).frame = s.frame.insert name value := by
  refine Finmap.ext_lookup fun other => ?_
  rw [lookup_frame]
  by_cases h : other = name
  · subst h
    rw [get?_insert_self, Finmap.lookup_insert]
  · rw [get?_insert_of_ne s value h, Finmap.lookup_insert_of_ne _ h, lookup_frame]

theorem modify_concat_length (ss : List Scope) (s : Scope) (f : Scope → Scope) :
    (ss ++ [s]).modify ss.length f = ss ++ [f s] := by
  induction ss with
  | nil => rfl
  | cons t ss ih => rw [List.cons_append, List.length_cons, List.modify_succ_cons, ih, List.cons_append]

theorem modify_concat_of_lt {ss : List Scope} {i : Nat} (h : i < ss.length) (s : Scope)
    (f : Scope → Scope) : (ss ++ [s]).modify i f = ss.modify i f ++ [s] := by
  induction ss generalizing i with
  | nil => cases h
  | cons t ss ih =>
      cases i with
      | zero => rfl
      | succ i =>
          have hi : i < ss.length := Nat.lt_of_succ_lt_succ h
          rw [List.cons_append, List.modify_succ_cons, ih hi, List.modify_succ_cons, List.cons_append]

theorem locate_concat (ss : List Scope) (s : Scope) (name : String) :
    locate (ss ++ [s]) name = ((s.get? name).map (⟨ss.length⟩, ·)).or (locate ss name) := by
  have outer : ∀ ids : List ScopeId, (∀ id ∈ ids, id.index < ss.length) →
      ids.findSome? (fun id => (((ss ++ [s])[id.index]?).bind (·.get? name)).map (id, ·)) =
        ids.findSome? (fun id => ((ss[id.index]?).bind (·.get? name)).map (id, ·)) := by
    intro ids hids
    induction ids with
    | nil => rfl
    | cons id ids ih =>
        obtain ⟨hid, hrest⟩ := List.forall_mem_cons.mp hids
        rw [List.findSome?_cons, List.findSome?_cons, ih hrest, List.getElem?_append_left hid]
  rw [locate, List.length_append, List.length_singleton, ScopeId.below, List.findSome?_cons,
    outer _ fun _ => ScopeId.lt_of_mem_below]
  simp only [List.getElem?_concat_length, Option.bind_some]
  cases s.get? name <;> rfl

end Scope

namespace Stack

inductive Holds : List Scope → Stack → Prop
  | global (s : Scope) : Holds [s] (global s.frame)
  | inner {ss : List Scope} {st : Stack} (outer : Holds ss st) (s : Scope) :
      Holds (ss ++ [s]) (inner s.frame st)

namespace Holds

variable {ss : List Scope} {st : Stack}

theorem frames_eq (h : Holds ss st) : st.frames = (ss.map Scope.frame).reverse := by
  induction h with
  | global => rfl
  | inner _ s ih => simp [frames, ih]

theorem lookup_eq (h : Holds ss st) (name : String) :
    st.lookup name = (Scope.locate ss name).map (·.2) := by
  induction h with
  | global s =>
      rw [← List.nil_append [s], Scope.locate_concat, lookup, Scope.lookup_frame]
      cases s.get? name <;> rfl
  | inner _ s ih =>
      rw [Scope.locate_concat, lookup, Scope.lookup_frame, ih]
      cases s.get? name <;> rfl

theorem define (h : Holds ss st) (name : String) (value : Value) :
    Holds (ss.modify (ss.length - 1) (·.insert name value)) (st.define name value) := by
  cases h with
  | global s =>
      rw [Stack.define, ← Scope.frame_insert]
      exact .global (s.insert name value)
  | @inner ss _ outer s =>
      rw [List.length_append, List.length_singleton, Nat.add_sub_cancel, Scope.modify_concat_length,
        Stack.define, ← Scope.frame_insert]
      exact .inner outer (s.insert name value)

theorem assign (h : Holds ss st) (name : String) (value : Value) :
    Option.Rel (fun found st' => Holds (ss.modify found.1.index (·.insert name value)) st')
      (Scope.locate ss name) (st.assign? name value) := by
  induction h with
  | global s =>
      rw [← List.nil_append [s], Scope.locate_concat, assign?]
      cases hs : s.get? name with
      | none =>
          rw [if_neg (Scope.notMem_frame hs)]
          exact .none
      | some v =>
          rw [if_pos (Scope.mem_frame hs), ← Scope.frame_insert]
          exact .some (.global (s.insert name value))
  | @inner ss st outer s ih =>
      rw [Scope.locate_concat, assign?]
      cases hs : s.get? name with
      | none =>
          rw [if_neg (Scope.notMem_frame hs), Option.map_none, Option.none_or]
          generalize hl : Scope.locate ss name = located at ih
          generalize st.assign? name value = assigned at ih
          cases ih with
          | none => exact .none
          | some holds =>
              refine .some ?_
              rw [Scope.modify_concat_of_lt (Scope.lt_of_locate hl)]
              exact .inner holds s
      | some v =>
          rw [if_pos (Scope.mem_frame hs), ← Scope.frame_insert]
          refine .some ?_
          rw [Scope.modify_concat_length]
          exact .inner outer (s.insert name value)

theorem push (h : Holds ss st) (parent : Option ScopeId) :
    Holds (ss ++ [⟨[], parent⟩]) (Stack.inner ∅ st) :=
  .inner h ⟨[], parent⟩

theorem pop (h : Holds ss st) (hs : 2 ≤ ss.length) :
    ∃ st', st.pop? = some st' ∧ Holds ss.dropLast st' := by
  cases h with
  | global s => simp at hs
  | @inner ss st outer s =>
      refine ⟨st, rfl, ?_⟩
      rw [List.dropLast_concat]
      exact outer

theorem length_pos (h : Holds ss st) : 0 < ss.length := by
  cases h <;> simp

theorem pop_global (h : Holds ss st) (hs : ss.length = 1) : st.pop? = none := by
  cases h with
  | global s => rfl
  | inner outer s =>
      have hpos := outer.length_pos
      rw [List.length_append, List.length_singleton] at hs
      omega

end Holds

theorem lookup_eq_none {st : Stack} {name : String} :
    st.lookup name = none ↔ ∀ f ∈ st.frames, name ∉ f := by
  induction st with
  | global f => simp [lookup, frames, Finmap.lookup_eq_none]
  | inner f outer ih => simp [lookup, frames, Finmap.lookup_eq_none, ih]

theorem answer_ne_fault {st : Stack} {op : Operation} {x : Answer × Stack}
    (h : st.step op = some x) (f : ScopeFault) : x.1 ≠ .failed (.fault f) := by
  cases op with
  | define name value =>
      cases h
      exact nofun
  | get name line =>
      cases h
      cases st.lookup name <;> exact nofun
  | assign name value line =>
      cases h
      cases st.assign? name value <;> exact nofun
  | enter =>
      cases h
      exact nofun
  | leave =>
      obtain ⟨st', -, rfl⟩ := Option.map_eq_some_iff.mp h
      exact nofun

end Stack

structure Simulates (s : HandleStack) (st : Stack) : Prop where
  chained : s.environment.Chained
  holds : st.Holds s.environment.scopes.toList
  handles : s.handles = ScopeId.below s.environment.current.index

namespace Simulates

variable {s : HandleStack} {st : Stack}

theorem initial : Simulates .initial (.global ∅) where
  chained := .initial
  holds := .global ⟨[], none⟩
  handles := rfl

theorem define (h : Simulates s st) (name : String) (value : Value) :
    Simulates ⟨s.environment.bindIn s.environment.current name value, s.handles⟩
      (st.define name value) where
  chained := h.chained.bindIn ..
  holds := by
    have top : s.environment.current.index = s.environment.scopes.toList.length - 1 := by
      rw [Array.length_toList, ← h.chained.last, Nat.add_sub_cancel]
    simp only [Environment.bindIn, Array.toList_modify, top]
    exact h.holds.define name value
  handles := h.handles

theorem assign (h : Simulates s st) (name : String) (value : Value) :
    Option.Rel
      (fun found st' => Simulates ⟨s.environment.bindIn found.1 name value, s.handles⟩ st')
      (Scope.locate s.environment.scopes.toList name) (st.assign? name value) := by
  have assigned := h.holds.assign name value
  generalize Scope.locate s.environment.scopes.toList name = located at assigned
  generalize st.assign? name value = st' at assigned
  cases assigned with
  | none => exact .none
  | some holds =>
      refine .some ⟨h.chained.bindIn .., ?_, h.handles⟩
      simpa only [Environment.bindIn, Array.toList_modify] using holds

theorem enter (h : Simulates s st) :
    Simulates ⟨s.environment.push, s.environment.current :: s.handles⟩ (.inner ∅ st) where
  chained := h.chained.push
  holds := by
    simp only [Environment.push, Array.toList_push]
    exact h.holds.push _
  handles := by
    simp only [Environment.push, ← h.chained.last, ScopeId.below, h.handles]

theorem leave (h : Simulates s st) {handle : ScopeId} {handles : List ScopeId}
    (hs : s.handles = handle :: handles) :
    ∃ st', st.pop? = some st' ∧ Simulates ⟨s.environment.pop handle, handles⟩ st' := by
  have below := h.handles.symm.trans hs
  have last := h.chained.last
  have index : s.environment.current.index = handles.length + 1 := by
    rw [← ScopeId.length_below s.environment.current.index, below, List.length_cons]
  have length : s.environment.scopes.toList.length = handles.length + 2 := by
    rw [Array.length_toList, ← last, index]
  obtain ⟨chained, rest⟩ := h.chained.pop_handle below
  obtain ⟨st', hst, holds⟩ := h.holds.pop (by omega)
  refine ⟨st', hst, chained, ?_, rest.symm⟩
  have kept : max s.environment.current.index 1 = s.environment.scopes.size - 1 := by omega
  simpa [Environment.pop, kept] using holds

theorem leave_global (h : Simulates s st) (hs : s.handles = []) : st.pop? = none := by
  refine h.holds.pop_global ?_
  have length := ScopeId.length_below s.environment.current.index
  rw [← h.handles, hs] at length
  rw [Array.length_toList, ← h.chained.last, ← length]
  rfl

theorem step (h : Simulates s st) (op : Operation) :
    Option.Rel (fun x y => x.1 = y.1 ∧ Simulates x.2 y.2) (s.step op) (st.step op) := by
  cases op with
  | define name value =>
      simp only [HandleStack.step, h.chained.define_eq]
      exact .some ⟨rfl, h.define name value⟩
  | get name line =>
      simp only [HandleStack.step, Stack.step, Environment.get, h.chained.find_eq, h.holds.lookup_eq]
      cases Scope.locate s.environment.scopes.toList name with
      | none => exact .some ⟨rfl, h⟩
      | some found => exact .some ⟨rfl, h⟩
  | assign name value line =>
      have assigned := h.assign name value
      simp only [HandleStack.step, Stack.step, Environment.assign, h.chained.find_eq]
      generalize Scope.locate s.environment.scopes.toList name = located at assigned
      generalize st.assign? name value = st' at assigned
      cases assigned with
      | none => exact .some ⟨rfl, h⟩
      | some simulates => exact .some ⟨rfl, simulates⟩
  | enter =>
      simp only [HandleStack.step, h.chained.enter_eq]
      exact .some ⟨rfl, h.enter⟩
  | leave =>
      cases hs : s.handles with
      | nil =>
          simp only [HandleStack.step, Stack.step, hs, h.leave_global hs]
          exact .none
      | cons handle handles =>
          obtain ⟨st', hst, simulates⟩ := h.leave hs
          simp only [HandleStack.step, Stack.step, hs, hst, h.chained.leave_eq]
          exact .some ⟨rfl, simulates⟩

theorem run (h : Simulates s st) (ops : List Operation) :
    Option.Rel (fun x y => x.1 = y.1 ∧ Simulates x.2 y.2) (Operation.run HandleStack.step s ops)
      (Operation.run Stack.step st ops) := by
  induction ops generalizing s st with
  | nil => exact .some ⟨rfl, h⟩
  | cons op ops ih =>
      have first := h.step op
      simp only [Operation.run]
      generalize s.step op = x at first
      generalize st.step op = y at first
      cases first with
      | none => exact .none
      | @some x y first =>
          obtain ⟨hanswer, hs⟩ := first
          have others := ih hs
          simp only [Option.bind_some]
          generalize Operation.run HandleStack.step x.2 ops = xs at others
          generalize Operation.run Stack.step y.2 ops = ys at others
          cases others with
          | none => exact .none
          | some others => exact .some ⟨congrArg₂ _ hanswer others.1, others.2⟩

theorem no_fault (h : Simulates s st) (op : Operation) (f : ScopeFault) (s' : HandleStack) :
    s.step op ≠ some (.failed (.fault f), s') := by
  intro hs
  have simulated := h.step op
  rw [hs] at simulated
  generalize hst : st.step op = y at simulated
  cases simulated with
  | some same => exact Stack.answer_ne_fault hst f same.1.symm

theorem get_fails (h : Simulates s st) (name : String) (line : Nat) :
    s.step (.get name line) = some (.failed (.undefined name line), s) ↔
      ∀ f ∈ st.frames, name ∉ f := by
  rw [← Stack.lookup_eq_none, h.holds.lookup_eq]
  simp only [HandleStack.step, Environment.get, h.chained.find_eq]
  cases Scope.locate s.environment.scopes.toList name with
  | none => exact ⟨fun _ => rfl, fun _ => rfl⟩
  | some found => exact ⟨nofun, nofun⟩

theorem assign_fails (h : Simulates s st) (name : String) (value : Value) (line : Nat) :
    s.step (.assign name value line) = some (.failed (.undefined name line), s) ↔
      ∀ f ∈ st.frames, name ∉ f := by
  rw [← Stack.lookup_eq_none, h.holds.lookup_eq]
  simp only [HandleStack.step, Environment.assign, h.chained.find_eq]
  cases Scope.locate s.environment.scopes.toList name with
  | none => exact ⟨fun _ => rfl, fun _ => rfl⟩
  | some found => exact ⟨nofun, nofun⟩

end Simulates

structure Agrees (s : HandleStack) (st : Stack) : Prop where
  chained : s.environment.Chained
  frames : (s.environment.scopes.toList.map Scope.frame).reverse = st.frames
  depth : s.environment.depth = .ok st.frames.length
  no_fault : ∀ op f s', s.step op ≠ some (.failed (.fault f), s')
  get_fails : ∀ name line, s.step (.get name line) = some (.failed (.undefined name line), s) ↔
    ∀ f ∈ st.frames, name ∉ f
  assign_fails : ∀ name value line,
    s.step (.assign name value line) = some (.failed (.undefined name line), s) ↔
      ∀ f ∈ st.frames, name ∉ f

theorem Simulates.agrees {s : HandleStack} {st : Stack} (h : Simulates s st) : Agrees s st where
  chained := h.chained
  frames := h.holds.frames_eq.symm
  depth := by
    rw [h.chained.depth_eq, h.holds.frames_eq, List.length_reverse, List.length_map,
      Array.length_toList]
  no_fault := h.no_fault
  get_fails := h.get_fails
  assign_fails := h.assign_fails

theorem environment_simulates_stack (ops : List Operation) :
    Option.Rel (fun x y => x.1 = y.1 ∧ Agrees x.2 y.2) (Operation.run HandleStack.step .initial ops)
      (Operation.run Stack.step (.global ∅) ops) := by
  have simulates := Simulates.initial.run ops
  generalize Operation.run HandleStack.step .initial ops = x at simulates
  generalize Operation.run Stack.step (.global ∅) ops = y at simulates
  cases simulates with
  | none => exact .none
  | some simulates => exact .some ⟨simulates.1, simulates.2.agrees⟩

end Treewalk
