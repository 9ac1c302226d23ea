import Treewalk.Value

namespace Treewalk

inductive Sexp where
  | word (text : String)
  | quoted (text : String)
  | list (head : String) (items : List Sexp)

namespace Sexp

def isPlain (c : Char) : Bool :=
  c ∉ [' ', '(', ')', '"', '\n']

mutual

def chars : Sexp → List Char
  | .word text => text.toList
  | .quoted text => '"' :: text.toList ++ ['"']
  | .list head items => '(' :: head.toList ++ charsAll items ++ [')']

def charsAll : List Sexp → List Char
  | [] => []
  | s :: ss => ' ' :: s.chars ++ charsAll ss

end

def IsWord (text : String) : Prop :=
  text.toList ≠ [] ∧ ∀ c ∈ text.toList, isPlain c

instance (text : String) : Decidable (IsWord text) :=
  decidable_of_iff (text.toList.isEmpty = false ∧ text.toList.all isPlain = true)
    (and_congr List.isEmpty_eq_false_iff List.all_eq_true)

mutual

def WellFormed : Sexp → Prop
  | .word text => IsWord text
  | .quoted text => ∀ c ∈ text.toList, c ≠ '"'
  | .list head items => IsWord head ∧ AllWellFormed items

def AllWellFormed : List Sexp → Prop
  | [] => True
  | s :: ss => s.WellFormed ∧ AllWellFormed ss

end

def Ends (rest : List Char) : Prop :=
  ∀ c ∈ rest.head?, ¬ isPlain c

theorem append_inj_at {p : Char → Bool} {a b r r' : List Char} (ha : ∀ c ∈ a, p c) (hb : ∀ c ∈ b, p c)
    (hr : ∀ c ∈ r.head?, ¬ p c) (hr' : ∀ c ∈ r'.head?, ¬ p c) (h : a ++ r = b ++ r') : a = b ∧ r = r' := by
  have stop {r : List Char} (hr : ∀ c ∈ r.head?, ¬ p c) : r.takeWhile p = [] := by
    cases r with
    | nil => rfl
    | cons c r => exact List.takeWhile_cons_of_neg (hr c rfl)
  have hab := congrArg (List.takeWhile p) h
  rw [List.takeWhile_append_of_pos ha, List.takeWhile_append_of_pos hb, stop hr, stop hr', List.append_nil,
    List.append_nil] at hab
  exact ⟨hab, List.append_cancel_left (hab ▸ h)⟩

theorem word_append_inj {a b : String} {r r' : List Char} (ha : IsWord a) (hb : IsWord b) (hr : Ends r)
    (hr' : Ends r') (h : a.toList ++ r = b.toList ++ r') : a = b ∧ r = r' := by
  obtain ⟨hab, hrest⟩ := append_inj_at ha.2 hb.2 hr hr' h
  exact ⟨String.toList_inj.mp hab, hrest⟩

theorem quoted_append_inj {a b : String} {r r' : List Char} (ha : ∀ c ∈ a.toList, c ≠ '"')
    (hb : ∀ c ∈ b.toList, c ≠ '"') (h : a.toList ++ '"' :: r = b.toList ++ '"' :: r') : a = b ∧ r = r' := by
  have quote (r : List Char) : ∀ c ∈ ('"' :: r).head?, ¬ (c != '"') := by simp
  obtain ⟨hab, hrest⟩ := append_inj_at (p := (· != '"')) (by simpa using ha) (by simpa using hb) (quote r) (quote r') h
  exact ⟨String.toList_inj.mp hab, (List.cons.inj hrest).2⟩

theorem ends_nil : Ends [] := by
  rintro _ ⟨⟩

theorem ends_cons {c : Char} {r : List Char} (hc : isPlain c = false) : Ends (c :: r) := by
  rintro _ ⟨⟩
  rw [hc]
  exact Bool.false_ne_true

theorem ends_charsAll (ss : List Sexp) (r : List Char) : Ends (charsAll ss ++ ')' :: r) := by
  cases ss with
  | nil => exact ends_cons rfl
  | cons s ss => exact ends_cons rfl

theorem IsWord.cons_of {a : String} (h : IsWord a) : ∃ c cs, a.toList = c :: cs ∧ isPlain c := by
  obtain ⟨c, cs, hcs⟩ := List.exists_cons_of_ne_nil h.1
  exact ⟨c, cs, hcs, h.2 c (hcs ▸ List.mem_cons_self)⟩

mutual

theorem chars_append_inj : (s t : Sexp) → {r r' : List Char} → s.WellFormed → t.WellFormed → Ends r → Ends r' →
    s.chars ++ r = t.chars ++ r' → s = t ∧ r = r'
  | .word a, .word b, _, _, hs, ht, hr, hr', h => by
    obtain ⟨rfl, rfl⟩ := word_append_inj hs ht hr hr' h
    exact ⟨rfl, rfl⟩
  | .quoted a, .quoted b, r, r', hs, ht, _, _, h => by
    simp only [chars, List.cons_append, List.append_assoc, List.cons.injEq, true_and, List.nil_append] at h
    obtain ⟨rfl, rfl⟩ := quoted_append_inj hs ht h
    exact ⟨rfl, rfl⟩
  | .list a ss, .list b ts, r, r', hs, ht, _, _, h => by
    simp only [chars, List.cons_append, List.append_assoc, List.cons.injEq, true_and, List.nil_append] at h
    obtain ⟨rfl, hrest⟩ := word_append_inj hs.1 ht.1 (ends_charsAll ss r) (ends_charsAll ts r') h
    obtain ⟨rfl, rfl⟩ := charsAll_append_inj ss ts hs.2 ht.2 hrest
    exact ⟨rfl, rfl⟩
  | .word a, .quoted _, _, _, hs, _, _, _, h | .word a, .list _ _, _, _, hs, _, _, _, h => by
    obtain ⟨c, cs, hcs, hc⟩ := IsWord.cons_of hs
    rw [chars, hcs] at h
    cases (List.cons.inj h).1
    cases hc
  | .quoted _, .word b, _, _, _, ht, _, _, h | .list _ _, .word b, _, _, _, ht, _, _, h => by
    obtain ⟨c, cs, hcs, hc⟩ := IsWord.cons_of ht
    rw [chars, hcs] at h
    cases (List.cons.inj h).1
    cases hc
  | .quoted _, .list _ _, _, _, _, _, _, _, h | .list _ _, .quoted _, _, _, _, _, _, _, h => by
    cases (List.cons.inj h).1

theorem charsAll_append_inj : (ss ts : List Sexp) → {r r' : List Char} → AllWellFormed ss → AllWellFormed ts →
    charsAll ss ++ ')' :: r = charsAll ts ++ ')' :: r' → ss = ts ∧ r = r'
  | [], [], _, _, _, _, h => ⟨rfl, (List.cons.inj h).2⟩
  | [], _ :: _, _, _, _, _, h | _ :: _, [], _, _, _, _, h => by cases (List.cons.inj h).1
  | s :: ss, t :: ts, r, r', hs, ht, h => by
    rw [charsAll, charsAll, List.cons_append, List.cons_append, List.append_assoc, List.append_assoc] at h
    obtain ⟨rfl, hrest⟩ := chars_append_inj s t hs.1 ht.1 (ends_charsAll ss r) (ends_charsAll ts r')
      (List.cons.inj h).2
    obtain ⟨rfl, rfl⟩ := charsAll_append_inj ss ts hs.2 ht.2 hrest
    exact ⟨rfl, rfl⟩

end

def lines : List Sexp → List Char
  | [] => []
  | s :: ss => s.chars ++ '\n' :: lines ss

theorem lines_inj : {ss ts : List Sexp} → AllWellFormed ss → AllWellFormed ts → lines ss = lines ts → ss = ts
  | [], [], _, _, _ => rfl
  | [], _ :: _, _, _, h => absurd (List.append_eq_nil_iff.mp h.symm).2 (List.cons_ne_nil _ _)
  | _ :: _, [], _, _, h => absurd (List.append_eq_nil_iff.mp h).2 (List.cons_ne_nil _ _)
  | s :: ss, t :: ts, hs, ht, h => by
    obtain ⟨rfl, hrest⟩ := chars_append_inj s t hs.1 ht.1 (ends_cons rfl) (ends_cons rfl) h
    rw [lines_inj hs.2 ht.2 (List.cons.inj hrest).2]

end Sexp

end Treewalk
