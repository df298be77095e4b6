import Mathlib.Data.List.Infix

/-!
# Names with numerals

Names are put together from fixed text and decimal numerals. A character that stands for
itself, one that is in no numeral and only once in the text, fixes where one name can be
inside another; a character behind a numeral fixes the numeral.

## Main definitions

* `toDigits_inj`, `append_cons_inj_of_prefixes` — numerals, and where they end.
* `infix_at_char` — a name inside another, from a character of both.
* `replaceAll` — `str.replace`; `replaceAll_suffix` — of the end of a name.
* `find?_of_unique` — the one entry of a table that matches.
-/

namespace Lib

section Numerals

theorem toDigits_inj {a b : ℕ} (h : Nat.toDigits 10 a = Nat.toDigits 10 b) : a = b := by
  have hvalue := congrArg (fun digits => Nat.ofDigitChars 10 digits 0) h
  simpa using hvalue

/-- A numeral has only digits. -/
theorem notMem_toDigits {c : Char} (hc : c.isDigit = false) (n : ℕ) : c ∉ Nat.toDigits 10 n := by
  intro h
  have hdigit := Nat.isDigit_of_mem_toDigits (by decide) (by decide) h
  rw [hc] at hdigit
  exact Bool.false_ne_true hdigit

end Numerals

section Substrings

variable {α : Type*}

/-- The first place of a character. -/
theorem append_cons_inj_of_prefixes {c : α} {x y u v : List α} (hx : c ∉ x) (hy : c ∉ y)
    (h : x ++ c :: u = y ++ c :: v) : x = y ∧ u = v := by
  induction x generalizing y with
  | nil =>
      cases y with
      | nil => exact ⟨rfl, (List.cons.inj h).2⟩
      | cons b y => exact absurd (List.cons.inj h).1 (fun heq => hy (by simp [heq]))
  | cons a x ih =>
      cases y with
      | nil => exact absurd (List.cons.inj h).1.symm (fun heq => hx (by simp [heq]))
      | cons b y =>
          have ⟨hab, hrest⟩ := List.cons.inj h
          have ⟨hxy, huv⟩ := ih (fun hc => hx (List.mem_cons_of_mem _ hc))
            (fun hc => hy (List.mem_cons_of_mem _ hc)) hrest
          exact ⟨by rw [hab, hxy], huv⟩

/-- A numeral that ends at the same character is the same. -/
theorem toDigits_append_cons_inj {c : Char} (hc : c.isDigit = false) {m n : ℕ} {u v : List Char}
    (h : Nat.toDigits 10 m ++ c :: u = Nat.toDigits 10 n ++ c :: v) : m = n ∧ u = v := by
  have ⟨hdigits, hrest⟩ :=
    append_cons_inj_of_prefixes (notMem_toDigits hc m) (notMem_toDigits hc n) h
  exact ⟨toDigits_inj hdigits, hrest⟩

/-- What has a character that the whole has once is where that character is. -/
theorem infix_at_char {c : α} {front back pre rest : List α} (hpre : c ∉ pre) (hrest : c ∉ rest)
    (h : front ++ c :: back <:+: pre ++ c :: rest) : front <:+ pre ∧ back <+: rest := by
  have ⟨s, t, hst⟩ := h
  have hsplit : (pre ++ c :: rest : List α) = (s ++ front) ++ c :: (back ++ t) := by
    rw [← hst]
    simp only [List.append_assoc, List.cons_append]
  have ⟨hfront, _, hback⟩ := (List.append_cons_inj_of_notMem hpre hrest).mp hsplit
  exact ⟨⟨s, hfront.symm⟩, ⟨t, hback.symm⟩⟩

variable [DecidableEq α]

/-- `name.replace(old, new)` for a nonempty `old`, from left to right; the first `skip`
characters belong to what was just replaced. -/
def replaceAll (old new : List α) : ℕ → List α → List α
  | _, [] => []
  | skip + 1, _ :: name => replaceAll old new skip name
  | 0, c :: name =>
      if old <+: c :: name then new ++ replaceAll old new (old.length - 1) name
      else c :: replaceAll old new 0 name

theorem replaceAll_skip (old new : List α) {skip : ℕ} {name : List α} (h : name.length ≤ skip) :
    replaceAll old new skip name = [] := by
  induction name generalizing skip with
  | nil => cases skip <;> rfl
  | cons c name ih =>
      cases skip with
      | zero => exact absurd h (Nat.not_succ_le_zero _)
      | succ skip => exact ih (Nat.le_of_succ_le_succ h)

/-- The end of a name is replaced, and nothing before, when it has a character that comes
there first. -/
theorem replaceAll_suffix {c : α} {pre front back : List α} (hpre : c ∉ pre) (hfront : c ∉ front)
    (new : List α) :
    replaceAll (front ++ c :: back) new 0 (pre ++ (front ++ c :: back)) = pre ++ new := by
  induction pre with
  | nil =>
      generalize hold : front ++ c :: back = old
      cases old with
      | nil => exact absurd hold (by simp)
      | cons a old =>
          rw [List.nil_append, replaceAll, if_pos (List.prefix_refl _),
            replaceAll_skip _ _ (by simp), List.append_nil, List.nil_append]
  | cons a pre ih =>
      have hnot : c ∉ a :: pre ++ front := by
        rw [List.mem_append, not_or]
        exact ⟨hpre, hfront⟩
      have hlater : ¬front ++ c :: back <+: a :: (pre ++ (front ++ c :: back)) := by
        intro h
        have hassoc : a :: (pre ++ (front ++ c :: back)) = (a :: pre ++ front) ++ c :: back := by
          simp only [List.cons_append, List.append_assoc]
        rw [hassoc] at h
        have ⟨t, ht⟩ := h
        rw [List.append_assoc, List.cons_append] at ht
        have hlength := congrArg List.length (append_cons_inj_of_prefixes hfront hnot ht).1
        simp only [List.cons_append, List.length_cons, List.length_append] at hlength
        omega
      rw [List.cons_append, replaceAll, if_neg hlater,
        ih (fun hc => hpre (List.mem_cons_of_mem _ hc)), List.cons_append]

end Substrings

/-- A search finds the one entry that matches, wherever it is. -/
theorem find?_of_unique {α : Type*} {l : List α} {p : α → Bool} {a : α} (ha : a ∈ l)
    (hp : p a = true) (hunique : ∀ b ∈ l, p b = true → b = a) : l.find? p = some a := by
  cases h : l.find? p with
  | none => exact absurd hp (List.find?_eq_none.mp h a ha)
  | some b => rw [hunique b (List.mem_of_find?_eq_some h) (List.find?_some h)]

end Lib
