import Treewalk.Proofs.Execution.Steps
import Treewalk.Proofs.Scopes.Shape

namespace Treewalk

open Machine

variable {W α β : Type}

theorem entering_of_rooted {m : Machine W} (h : m.environment.push.Rooted) :
    ∃ log, entering m = .ok m.environment.current ⟨m.environment.push, m.output, log⟩ := by
  simp only [entering, onEnvironment, Environment.enter, bind, EStateM.bind, h.depth_eq]
  exact ⟨_, rfl⟩

theorem entering_of_not_rooted {m : Machine W} (h : ¬ m.environment.push.Rooted) :
    ∃ f, entering m = .error (.fault f) { m with environment := m.environment.push } := by
  obtain ⟨f, hf⟩ := Option.ne_none_iff_exists'.mp h
  have hdepth : m.environment.push.depth = .error f := by
    rw [Environment.depth, (Prod.ext rfl hf : m.environment.push.chain = (m.environment.push.chain.1, some f))]
  simp only [entering, onEnvironment, Environment.enter, bind, EStateM.bind, hdepth]
  exact ⟨f, rfl⟩

theorem rooted_of_entering {m n : Machine W} {enclosing : ScopeId} (h : entering m = .ok enclosing n) :
    n.environment.Rooted := by
  by_cases hroot : m.environment.push.Rooted
  · obtain ⟨log, hentering⟩ := entering_of_rooted hroot
    rw [hentering] at h
    cases h
    exact hroot
  · obtain ⟨f, hentering⟩ := entering_of_not_rooted hroot
    rw [hentering] at h
    cases h

theorem leaving_of_rooted {m : Machine W} (h : m.environment.Rooted) (enclosing : ScopeId) :
    ∃ log, leaving enclosing m = .ok () ⟨m.environment.pop enclosing, m.output, log⟩ := by
  simp only [leaving, onEnvironment, Environment.leave, bind, EStateM.bind, h.depth_eq]
  exact ⟨_, rfl⟩

section

variable {act : Exec W Unit} {m inner n : Machine W}

theorem inNewScope_of_error {stop : Abort} (h : entering m = .error stop n) : inNewScope act m = .error stop n := by
  simp only [inNewScope_eq, bind, EStateM.bind, h]

theorem inNewScope_ok {enclosing : ScopeId} (h : entering m = .ok enclosing inner) (hact : act inner = .ok () n)
    (hroot : n.environment.Rooted) :
    ∃ log, inNewScope act m = .ok () ⟨n.environment.pop enclosing, n.output, log⟩ := by
  obtain ⟨log, hleaving⟩ := leaving_of_rooted hroot enclosing
  refine ⟨log, ?_⟩
  simp only [inNewScope_eq, bind, EStateM.bind, h, tryFinally, tryFinally', Functor.map, EStateM.map, hact, hleaving]

theorem inNewScope_stopped {enclosing : ScopeId} {stop : Abort} (h : entering m = .ok enclosing inner)
    (hact : act inner = .error stop n) (hroot : n.environment.Rooted) :
    ∃ log, inNewScope act m = .error stop ⟨n.environment.pop enclosing, n.output, log⟩ := by
  obtain ⟨log, hleaving⟩ := leaving_of_rooted hroot enclosing
  refine ⟨log, ?_⟩
  simp only [inNewScope_eq, bind, EStateM.bind, h, tryFinally, tryFinally', Functor.map, EStateM.map, hact, hleaving]

end

def Firm (act : Exec W α) : Prop :=
  ∀ m a n, act m = .ok a n → n.environment.shape = m.environment.shape

theorem inNewScope_eq_ok {act : Exec W Unit} (hfirm : Firm act) {m n : Machine W} (h : inNewScope act m = .ok () n) :
    ∃ log k log', m.environment.push.Rooted ∧ act ⟨m.environment.push, m.output, log⟩ = .ok () k ∧
      k.environment.shape = m.environment.push.shape ∧
      n = ⟨k.environment.pop m.environment.current, k.output, log'⟩ := by
  by_cases hroot : m.environment.push.Rooted
  · obtain ⟨log, hentering⟩ := entering_of_rooted hroot
    cases hact : act ⟨m.environment.push, m.output, log⟩ with
    | ok _ k =>
      have hshape : k.environment.shape = m.environment.push.shape := hfirm _ _ _ hact
      obtain ⟨log', hscope⟩ := inNewScope_ok hentering hact (hroot.of_shape hshape)
      rw [hscope] at h
      cases h
      exact ⟨log, k, log', hroot, hact, hshape, rfl⟩
    | error stop k =>
      simp only [inNewScope_eq, bind, EStateM.bind, hentering, tryFinally, tryFinally', Functor.map, EStateM.map,
        hact] at h
      cases hleaving : leaving m.environment.current k <;> rw [hleaving] at h <;> cases h
  · obtain ⟨f, hentering⟩ := entering_of_not_rooted hroot
    rw [inNewScope_of_error hentering] at h
    cases h

namespace Firm

theorem pure (a : α) : Firm (pure a : Exec W α) := by
  rintro m _ _ ⟨⟩
  rfl

theorem bind {act : Exec W α} {next : α → Exec W β} (h : Firm act) (hnext : ∀ a, Firm (next a)) :
    Firm (act >>= next) := by
  intro m b n hm
  simp only [Bind.bind, EStateM.bind] at hm
  cases hact : act m with
  | ok a k =>
    rw [hact] at hm
    exact (hnext a k b n hm).trans (h m a k hact)
  | error stop k =>
    rw [hact] at hm
    cases hm

theorem tell (r : Record) : Firm (tell r : Exec W Unit) := by
  rintro m _ _ ⟨⟩
  rfl

theorem printLine [Sink W] (text : String) (line : Nat) : Firm (printLine text line : Exec W Unit) := by
  intro m a n h
  unfold Machine.printLine at h
  split at h
  · cases h
    rfl
  · cases h

theorem raising (line : Nat) (result : Except Cause Value) :
    Firm (onEnvironment (raiseOn line result) : Exec W Value) := by
  intro m a n h
  cases result <;> cases h
  rfl

theorem reading (x : String) (line : Nat) : Firm (reading x line : Exec W Value) := by
  intro m a n h
  rw [reading_apply] at h
  split at h
  · cases h
    rfl
  · cases h

theorem assigning (x : String) (line : Nat) (v : Value) : Firm (assigning x line v : Exec W Value) := by
  intro m a n h
  rw [assigning_apply, Environment.assign] at h
  cases hfind : m.environment.find x line with
  | ok found =>
    rw [hfind] at h
    cases h
    exact Environment.shape_bindIn ..
  | error stop =>
    rw [hfind] at h
    cases h

theorem declaring (x : String) (line : Nat) (v : Value) : Firm (declaring x line v : Exec W Unit) := by
  intro m a n h
  rw [declaring_apply, Environment.define] at h
  by_cases hcurrent : m.environment.current.index < m.environment.scopes.size
  · rw [if_pos hcurrent] at h
    cases h
    exact Environment.shape_bindIn ..
  · rw [if_neg hcurrent] at h
    cases h

theorem inNewScope {act : Exec W Unit} (h : Firm act) : Firm (inNewScope act) := by
  intro m _ n hn
  obtain ⟨log, k, log', hroot, -, hshape, rfl⟩ := inNewScope_eq_ok h hn
  exact Environment.shape_pop hshape (Environment.size_pos_of_push hroot)

theorem eval (e : Expr) : Firm (onEnvironment e.eval : Exec W Value) := by
  induction e with
  | literal v line => exact pure v
  | group e line ih => exact ih
  | unary op e line ih =>
    rw [Expr.eval, onEnvironment_bind]
    exact ih.bind fun v => raising line _
  | binary op l r line ihl ihr =>
    simp only [Expr.eval, onEnvironment_bind]
    exact ihl.bind fun a => ihr.bind fun b => raising line _
  | «variable» name line => exact reading name line
  | assign name e line ih =>
    rw [Expr.eval, onEnvironment_bind]
    exact ih.bind fun v => assigning name line v

end Firm

namespace Statement

variable [Sink W]

mutual

theorem exec_firm : (s : Statement) → Firm (s.exec : Exec W Unit)
  | .expression e line => by
    rw [exec]
    exact (Firm.tell _).bind fun _ => (Firm.eval e).bind fun _ => .pure ()
  | .print e line => by
    rw [exec]
    exact (Firm.eval e).bind fun v => .printLine v.text line
  | .declare name none line => by
    rw [exec]
    exact (Firm.pure Value.nil).bind fun v => .declaring name line v
  | .declare name (some e) line => by
    rw [exec]
    exact (Firm.eval e).bind fun v => .declaring name line v
  | .block body line => by
    rw [exec]
    exact (execAll_firm body).inNewScope

theorem execAll_firm : (ss : List Statement) → Firm (execAll ss : Exec W Unit)
  | [] => .pure ()
  | s :: ss => by
    rw [execAll]
    exact (exec_firm s).bind fun _ => execAll_firm ss

end

end Statement

end Treewalk
