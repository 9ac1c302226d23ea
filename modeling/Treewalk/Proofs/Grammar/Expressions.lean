import Treewalk.Proofs.Grammar.Parsers

namespace Treewalk

theorem Constant.kind_ne {t : Token} {v : Value} (h : Constant t v) :
    t.kind ≠ .endOfInput ∧ UnaryOp.ofKind? t.kind = none := by
  cases h <;> simp_all [UnaryOp.ofKind?]

namespace Derives

variable {n : Nonterminal} {ts : List Token} {e : Expr}

theorem kind_ne_endOfInput (h : Derives n ts e) : ∀ t ∈ ts, t.kind ≠ .endOfInput := by
  induction h with
  | constant hc => simpa using hc.kind_ne.1
  | name hx => simp [hx]
  | group hl _ hr ih => simpa [hl, hr, or_imp, forall_and] using ih
  | unary hk _ _ ih => simpa [hk] using ih
  | binary _ hk _ _ _ ihl ihr => simpa [hk, or_imp, forall_and] using ⟨ihl, ihr⟩
  | assign hx hq _ ih => simpa [hx, hq] using ih
  | tighter _ _ ih => exact ih

theorem primary_head (h : Derives .primary ts e) :
    ∃ t us, ts = t :: us ∧ UnaryOp.ofKind? t.kind = none := by
  cases h with
  | constant hc => exact ⟨_, _, rfl, hc.kind_ne.2⟩
  | name hx => exact ⟨_, _, rfl, by rw [hx]; rfl⟩
  | group hl _ _ => exact ⟨_, _, rfl, by rw [hl]; rfl⟩
  | binary hm => cases hm
  | tighter hm => cases hm

theorem eq_singleton_of_variable {name : String} {line : Nat} (h : Derives n ts (.variable name line)) :
    ∃ x, ts = [x] ∧ x.kind = .identifier ∧ name = x.lexeme ∧ line = x.line := by
  generalize he : Expr.variable name line = e at h
  induction h with
  | name hx =>
    cases he
    exact ⟨_, rfl, hx, rfl, rfl⟩
  | tighter _ _ ih => exact ih he
  | _ => cases he

end Derives

namespace Grammar

def Sound (x : TokenParser Expr) (n : Nonterminal) (room : Nat) : Prop :=
  ∀ ⦃ts rest : List Token⦄ ⦃e : Expr⦄, x ts = .ok e rest →
    ∃ used, ts = used ++ rest ∧ Derives n used e ∧ e.nesting ≤ room

section Soundness

variable {room : Nat}

theorem primary_sound (ih : ∀ k, room = k + 1 → Sound (parser k .assignment) .assignment k) :
    Sound (parser room .primary) .primary room := by
  intro ts rest e h
  rcases primary_cases h with ⟨t, v, hc, rfl, rfl⟩ | ⟨x, hx, rfl, rfl⟩ |
    ⟨g, l, r, mid, e', hg, hl, hr, rfl, he, rfl⟩
  · exact ⟨[t], rfl, .constant hc, Nat.zero_le _⟩
  · exact ⟨[x], rfl, .name hx, Nat.zero_le _⟩
  · obtain ⟨k, rfl, rfl⟩ := within_eq_some hg
    obtain ⟨used, rfl, hd, hn⟩ := ih k rfl he
    exact ⟨l :: used ++ [r], by simp, .group hl hd hr, Nat.succ_le_succ hn⟩

theorem unary_sound (ih : ∀ k, room = k + 1 → Sound (parser k .unary) .unary k)
    (hp : Sound (parser room .primary) .primary room) : Sound (parser room .unary) .unary room := by
  intro ts rest e h
  rw [parser_unary] at h
  rcases unary_cases h with ⟨g, t, s, op, mid, e', hg, hk, hs, rfl, he, rfl⟩ | h
  · obtain ⟨k, rfl, rfl⟩ := within_eq_some hg
    obtain ⟨used, rfl, hd, hn⟩ := ih k rfl he
    exact ⟨t :: used, rfl, .unary hk hs hd, Nat.succ_le_succ hn⟩
  · obtain ⟨used, rfl, hd, hn⟩ := hp h
    exact ⟨used, rfl, .tighter rfl hd, hn⟩

theorem extend_sound {n m : Nonterminal} {p : Precedence} (hp : n.precedence? = some p)
    (hm : n.tighter? = some m) (ho : Sound (parser room m) m room) {fuel : Nat} {left e : Expr}
    {used ts rest : List Token} (hl : Derives n used left) (hn : left.nesting ≤ room)
    (h : extend p (parser room m) fuel left ts = .ok e rest) :
    ∃ more, ts = more ++ rest ∧ Derives n (used ++ more) e ∧ e.nesting ≤ room := by
  induction fuel generalizing left used ts with
  | zero =>
    obtain ⟨rfl, rfl⟩ := TokenParser.pure_eq_ok.mp h
    exact ⟨[], rfl, by rwa [List.append_nil], hn⟩
  | succ fuel ih =>
    rcases extend_cases hp h with ⟨rfl, rfl⟩ | ⟨t, s, op, mid, mid', right, hk, hs, rfl, hr, hext⟩
    · exact ⟨[], rfl, by rwa [List.append_nil], hn⟩
    · obtain ⟨taken, rfl, hd, hn'⟩ := ho hr
      obtain ⟨more, rfl, hd', hn''⟩ := ih (.binary hm hk hs hl hd) (Nat.max_le.mpr ⟨hn, hn'⟩) hext
      exact ⟨t :: taken ++ more, by simp, by simpa using hd', hn''⟩

theorem chain_sound {n m : Nonterminal} {p : Precedence} (hp : n.precedence? = some p)
    (hm : n.tighter? = some m) (ho : Sound (parser room m) m room) : Sound (parser room n) n room := by
  intro ts rest e h
  rw [parser_binary room hp hm] at h
  obtain ⟨left, mid, hl, hext⟩ := chain_cases h
  obtain ⟨used, rfl, hd, hn⟩ := ho hl
  obtain ⟨more, rfl, hd', hn'⟩ := extend_sound hp hm ho (.tighter hm hd) hn hext
  exact ⟨used ++ more, by simp, hd', hn'⟩

theorem assignment_sound (ih : ∀ k, room = k + 1 → Sound (parser k .assignment) .assignment k)
    (ht : Sound (parser room .equality) .equality room) :
    Sound (parser room .assignment) .assignment room := by
  intro ts rest e h
  rw [parser_assignment] at h
  rcases assignment_cases h with ⟨h, -⟩ | ⟨g, name, line, q, mid, v, hg, hq, hx, hv, rfl⟩
  · obtain ⟨used, rfl, hd, hn⟩ := ht h
    exact ⟨used, rfl, .tighter rfl hd, hn⟩
  · obtain ⟨k, rfl, rfl⟩ := within_eq_some hg
    obtain ⟨used, rfl, hd, -⟩ := ht hx
    obtain ⟨x, rfl, hk, rfl, rfl⟩ := hd.eq_singleton_of_variable
    obtain ⟨more, rfl, hd', hn⟩ := ih k rfl hv
    exact ⟨x :: q :: more, rfl, .assign hk hq hd', Nat.succ_le_succ hn⟩

theorem level_sound (ih : ∀ k, room = k + 1 → ∀ n, Sound (parser k n) n k) (n : Nonterminal) :
    Sound (parser room n) n room := by
  have hprimary := primary_sound fun k hk => ih k hk .assignment
  have hunary := unary_sound (fun k hk => ih k hk .unary) hprimary
  have hfactor : Sound (parser room .factor) .factor room := chain_sound rfl rfl hunary
  have hterm : Sound (parser room .term) .term room := chain_sound rfl rfl hfactor
  have hcomparison : Sound (parser room .comparison) .comparison room := chain_sound rfl rfl hterm
  have hequality : Sound (parser room .equality) .equality room := chain_sound rfl rfl hcomparison
  have hassignment := assignment_sound (fun k hk => ih k hk .assignment) hequality
  cases n <;> assumption

theorem parser_sound (room : Nat) (n : Nonterminal) : Sound (parser room n) n room := by
  induction room generalizing n with
  | zero => exact level_sound (by simp) n
  | succ room ih =>
    refine level_sound (fun k hk => ?_) n
    cases hk
    exact ih

end Soundness

section Completeness

variable {room : Nat} {n m : Nonterminal} {ts : List Token} {e : Expr}

-- An operator may carry a binary tree on, so the left operand of a longer chain is only passed through.
structure Accepts (room : Nat) (n : Nonterminal) (ts : List Token) (e : Expr) : Prop where
  whole : ∀ rest, n.Ends rest → parser room n (ts ++ rest) = .ok e rest
  passed : ∀ {p : Precedence} {m : Nonterminal} (rest : List Token), n.precedence? = some p →
    n.tighter? = some m → m.Ends rest →
    ∃ fuel, rest.length ≤ fuel ∧ parser room n (ts ++ rest) = extend p (parser room m) fuel e rest

theorem Accepts.of_whole (hn : n.precedence? = none)
    (h : ∀ rest, n.Ends rest → parser room n (ts ++ rest) = .ok e rest) : Accepts room n ts e := by
  refine ⟨h, fun rest hp => ?_⟩
  rw [hn] at hp
  cases hp

theorem Accepts.of_passed {p : Precedence} (hp : n.precedence? = some p) (hm : n.tighter? = some m)
    (h : ∀ rest, m.Ends rest → ∃ fuel, rest.length ≤ fuel ∧
      parser room n (ts ++ rest) = extend p (parser room m) fuel e rest) : Accepts room n ts e := by
  refine ⟨fun rest hends => ?_, fun rest hp' hm' => ?_⟩
  · obtain ⟨fuel, -, heq⟩ := h rest (hends.tighter hm)
    rw [heq]
    exact extend_end hp fun s op hs => hends s (Nonterminal.mem_continuations hs)
  · cases hp.symm.trans hp'
    cases hm.symm.trans hm'
    exact h rest

theorem Accepts.tighter (hm : n.tighter? = some m)
    (hu : n = .unary → ∃ t us, ts = t :: us ∧ UnaryOp.ofKind? t.kind = none) (h : Accepts room m ts e) :
    Accepts room n ts e := by
  cases hp : n.precedence? with
  | some p =>
    refine .of_passed hp hm fun rest hends => ⟨rest.length, Nat.le_refl _, ?_⟩
    rw [parser_binary room hp hm, chain_of_operand (h.whole rest hends)]
  | none =>
    refine .of_whole hp fun rest hends => ?_
    cases n <;> cases hp <;> cases hm
    · rw [parser_assignment]
      exact assignment_target (h.whole rest (hends.tighter rfl)) (hends .equal (by decide))
    · obtain ⟨t, us, rfl, ht⟩ := hu rfl
      rw [parser_unary, List.cons_append, unary_primary (by rwa [Token.peek_cons])]
      exact h.whole rest hends

theorem Accepts.name {x : Token} (hx : x.kind = .identifier) :
    Accepts room .equality [x] (.variable x.lexeme x.line) := by
  have hprimary : Accepts room .primary [x] (.variable x.lexeme x.line) :=
    .of_whole rfl fun _ _ => primary_variable hx
  have hunary : Accepts room .unary [x] (.variable x.lexeme x.line) :=
    hprimary.tighter rfl fun _ => ⟨x, [], rfl, by rw [hx]; rfl⟩
  have hfactor : Accepts room .factor [x] (.variable x.lexeme x.line) := hunary.tighter rfl nofun
  have hterm : Accepts room .term [x] (.variable x.lexeme x.line) := hfactor.tighter rfl nofun
  have hcomparison : Accepts room .comparison [x] (.variable x.lexeme x.line) := hterm.tighter rfl nofun
  exact hcomparison.tighter rfl nofun

theorem Accepts.binary {t : Token} {s : Symbol} {op : BinaryOp} {us : List Token} {l r : Expr}
    (hm : n.tighter? = some m) (hk : t.kind = .symbol s) (hs : (s, op) ∈ n.operators)
    (hl : Accepts room n ts l) (hr : Accepts room m us r) :
    Accepts room n (ts ++ t :: us) (.binary op l r t.line) := by
  have hp := (Nonterminal.mem_operators_iff.mp hs).2
  refine .of_passed hp hm fun rest hends => ?_
  obtain ⟨fuel, hfuel, heq⟩ := hl.passed (t :: us ++ rest) hp hm (.of_operator hm hk hs)
  obtain ⟨fuel, rfl⟩ : ∃ k, fuel = k + 1 :=
    Nat.exists_eq_add_one_of_ne_zero (by rintro rfl; simp at hfuel)
  refine ⟨fuel, by simp at hfuel; omega, ?_⟩
  rw [List.append_assoc, heq, List.cons_append, extend_operator hp hk hs (hr.whole rest hends)]

theorem accepts_of_derives (h : Derives n ts e) {room : Nat} (hn : e.nesting ≤ room) :
    Accepts room n ts e := by
  induction h generalizing room with
  | constant hc => exact .of_whole rfl fun _ _ => primary_constant hc
  | name hx => exact .of_whole rfl fun _ _ => primary_variable hx
  | @group l r ts e hl _ hr ih =>
    cases room with
    | zero => exact absurd hn (Nat.not_succ_le_zero _)
    | succ k =>
      refine .of_whole rfl fun rest _ => ?_
      have he := (ih (Nat.le_of_succ_le_succ hn)).whole (r :: rest) (.of_symbol hr (by decide))
      rw [List.append_assoc, List.singleton_append]
      exact primary_group (g := ofRoom k) hl hr he
  | @unary t s op ts e hk hs _ ih =>
    cases room with
    | zero => exact absurd hn (Nat.not_succ_le_zero _)
    | succ k =>
      refine .of_whole rfl fun rest hends => ?_
      rw [parser_unary]
      exact unary_operator (g := ofRoom k) hk hs ((ih (Nat.le_of_succ_le_succ hn)).whole rest hends)
  | binary hm hk hs _ _ ihl ihr =>
    obtain ⟨hl, hr⟩ := Nat.max_le.mp hn
    exact .binary hm hk hs (ihl hl) (ihr hr)
  | @assign x q ts e hx hq _ ih =>
    cases room with
    | zero => exact absurd hn (Nat.not_succ_le_zero _)
    | succ k =>
      refine .of_whole rfl fun rest hends => ?_
      have htarget : parser (k + 1) .equality (x :: q :: (ts ++ rest)) = _ :=
        (Accepts.name hx).whole (q :: (ts ++ rest)) (.of_symbol hq (by decide))
      rw [parser_assignment]
      exact assignment_assign (g := ofRoom k) hq htarget
        ((ih (Nat.le_of_succ_le_succ hn)).whole rest hends)
  | @tighter n m ts e hm hd ih =>
    refine (ih hn).tighter hm ?_
    rintro rfl
    cases hm
    exact hd.primary_head

theorem parser_complete (h : Derives n ts e) (hn : e.nesting ≤ room) {rest : List Token}
    (hends : n.Ends rest) :
    parser room n (ts ++ rest) = .ok e rest :=
  (accepts_of_derives h hn).whole rest hends

end Completeness

end Grammar

end Treewalk
