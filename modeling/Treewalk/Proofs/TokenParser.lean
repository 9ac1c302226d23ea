import Treewalk.Token.Parser

namespace Treewalk

namespace Token

theorem eq_cons_of_peek_kind {ts : List Token} {kind : TokenKind} (hk : kind ≠ .endOfInput)
    (h : (peek ts).kind = kind) : ts = peek ts :: ts.tail := by
  cases ts with
  | nil => exact absurd h.symm hk
  | cons t ts => rfl

end Token

namespace TokenParser

variable {α β : Type} {ts mid rest : List Token}

theorem bind_of_ok {x : TokenParser α} {f : α → TokenParser β} {a : α} (h : x ts = .ok a mid) :
    (x >>= f) ts = f a mid := by
  simp only [bind, EStateM.bind, h]

theorem bind_eq_ok {x : TokenParser α} {f : α → TokenParser β} {b : β} :
    (x >>= f) ts = .ok b rest ↔ ∃ a mid, x ts = .ok a mid ∧ f a mid = .ok b rest := by
  simp only [bind, EStateM.bind]
  cases x ts with
  | ok a mid => simp only [EStateM.Result.ok.injEq, and_assoc, exists_eq_left', exists_and_left]
  | error d mid => simp

@[simp] theorem pure_eq_ok {a b : α} : (pure a : TokenParser α) ts = .ok b rest ↔ a = b ∧ ts = rest := by
  change EStateM.Result.ok a ts = .ok b rest ↔ _
  simp

theorem map_eq_ok {x : TokenParser α} {f : α → β} {b : β} :
    (f <$> x) ts = .ok b rest ↔ ∃ a, f a = b ∧ x ts = .ok a rest := by
  change EStateM.map f x ts = _ ↔ _
  unfold EStateM.map
  cases x ts with
  | ok a mid =>
    simp only [EStateM.Result.ok.injEq]
    exact ⟨fun h => ⟨a, h.1, rfl, h.2⟩, fun ⟨_, hb, ha, hr⟩ => ⟨ha ▸ hb, hr⟩⟩
  | error d mid => simp

@[simp] theorem throw_ne_ok {d : Diagnostic} {a : α} : (throw d : TokenParser α) ts ≠ .ok a rest := by
  change EStateM.Result.error d ts ≠ .ok a rest
  simp

theorem bind_of_error {x : TokenParser α} {f : α → TokenParser β} {d : Diagnostic}
    (h : x ts = .error d rest) : (x >>= f) ts = .error d rest := by
  simp only [bind, EStateM.bind, h]

theorem bind_eq_error {x : TokenParser α} {f : α → TokenParser β} {d : Diagnostic} :
    (x >>= f) ts = .error d rest ↔
      x ts = .error d rest ∨ ∃ a mid, x ts = .ok a mid ∧ f a mid = .error d rest := by
  simp only [bind, EStateM.bind]
  cases x ts with
  | ok a mid => simp [and_assoc]
  | error d mid => simp

@[simp] theorem pure_ne_error {a : α} {d : Diagnostic} :
    (pure a : TokenParser α) ts ≠ .error d rest := by
  change EStateM.Result.ok a ts ≠ .error d rest
  simp

@[simp] theorem throw_eq_error {d d' : Diagnostic} :
    (throw d : TokenParser α) ts = .error d' rest ↔ d = d' ∧ ts = rest := by
  change EStateM.Result.error d ts = .error d' rest ↔ _
  simp

theorem peek_bind (f : Token → TokenParser β) : (peek >>= f) ts = f (Token.peek ts) ts := rfl

theorem advance_bind (f : Unit → TokenParser β) : (advance >>= f) ts = f () ts.tail := rfl

theorem get_bind (f : List Token → TokenParser β) : (get >>= f) ts = f ts ts := rfl

theorem accept_apply (kind : TokenKind) : (accept kind : TokenParser _) ts =
    if (Token.peek ts).kind = kind then .ok (some (Token.peek ts)) ts.tail else .ok none ts := by
  unfold accept
  rw [peek_bind]
  split <;> rfl

theorem expect_apply (kind : TokenKind) (expectation : String) : (expect kind expectation : TokenParser _) ts =
    if (Token.peek ts).kind = kind then .ok (Token.peek ts) ts.tail
    else .error (.unexpected (Token.peek ts) expectation) ts := by
  unfold expect
  by_cases h : (Token.peek ts).kind = kind
  · rw [bind_of_ok (by rw [accept_apply, if_pos h]), if_pos h]
    rfl
  · rw [bind_of_ok (by rw [accept_apply, if_neg h]), if_neg h]
    rfl

theorem accept_cons {t : Token} {kind : TokenKind} (h : t.kind = kind) :
    (accept kind : TokenParser _) (t :: ts) = .ok (some t) ts := by
  rw [accept_apply, Token.peek_cons, if_pos h, List.tail_cons]

theorem accept_none {kind : TokenKind} (h : (Token.peek ts).kind ≠ kind) :
    (accept kind : TokenParser _) ts = .ok none ts := by
  rw [accept_apply, if_neg h]

theorem accept_eq_ok {kind : TokenKind} (hk : kind ≠ .endOfInput) {o : Option Token}
    (h : (accept kind : TokenParser _) ts = .ok o rest) :
    (∃ t, o = some t ∧ t.kind = kind ∧ ts = t :: rest) ∨
      (o = none ∧ rest = ts ∧ (Token.peek rest).kind ≠ kind) := by
  rw [accept_apply] at h
  split at h
  · next hp =>
    simp only [EStateM.Result.ok.injEq] at h
    obtain ⟨rfl, rfl⟩ := h
    exact .inl ⟨Token.peek ts, rfl, hp, Token.eq_cons_of_peek_kind hk hp⟩
  · next hp =>
    simp only [EStateM.Result.ok.injEq] at h
    obtain ⟨rfl, rfl⟩ := h
    exact .inr ⟨rfl, rfl, hp⟩

theorem expect_cons {t : Token} {kind : TokenKind} (expectation : String) (h : t.kind = kind) :
    (expect kind expectation : TokenParser _) (t :: ts) = .ok t ts := by
  rw [expect_apply, Token.peek_cons, if_pos h, List.tail_cons]

theorem expect_eq_ok {kind : TokenKind} (hk : kind ≠ .endOfInput) {expectation : String} {t : Token}
    (h : (expect kind expectation : TokenParser _) ts = .ok t rest) : t.kind = kind ∧ ts = t :: rest := by
  rw [expect_apply] at h
  split at h
  · next hp =>
    simp only [EStateM.Result.ok.injEq] at h
    obtain ⟨rfl, rfl⟩ := h
    exact ⟨hp, Token.eq_cons_of_peek_kind hk hp⟩
  · simp at h

theorem accept_ne_error {kind : TokenKind} {d : Diagnostic} : (accept kind : TokenParser _) ts ≠ .error d rest := by
  rw [accept_apply]
  split <;> simp

theorem expect_of_ne {kind : TokenKind} (expectation : String) (h : (Token.peek ts).kind ≠ kind) :
    (expect kind expectation : TokenParser _) ts = .error (.unexpected (Token.peek ts) expectation) ts := by
  rw [expect_apply, if_neg h]

theorem expect_eq_error {kind : TokenKind} {expectation : String} {d : Diagnostic}
    (h : (expect kind expectation : TokenParser _) ts = .error d rest) :
    (Token.peek rest).kind ≠ kind ∧ d = .unexpected (Token.peek rest) expectation ∧ ts = rest := by
  rw [expect_apply] at h
  split at h
  · cases h
  · next hk =>
    cases h
    exact ⟨hk, rfl, rfl⟩

theorem enter_bind_none (opener : Token) (f : α → TokenParser β) :
    (enter none opener >>= f) ts = .error (.about opener .tooDeep) ts := rfl

theorem enter_bind_some (a : α) (opener : Token) (f : α → TokenParser β) :
    (enter (some a) opener >>= f) ts = f a ts := rfl

theorem enter_eq_ok {inner : Option α} {opener : Token} {a : α}
    (h : (enter inner opener : TokenParser α) ts = .ok a rest) :
    inner = some a ∧ ts = rest := by
  cases inner with
  | none => exact absurd h throw_ne_ok
  | some b =>
    obtain ⟨rfl, rfl⟩ := pure_eq_ok.mp h
    exact ⟨rfl, rfl⟩

end TokenParser

end Treewalk
