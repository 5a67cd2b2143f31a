import Bestiary.Proofs.Toml.QuotedText
import Bestiary.Toml.Key
import Mathlib.Data.List.Induction

/-!
# Keys read back

The path of a table is written as its keys with dots between them, each bare or in quotes.

* `pathText` is the text of a path, `keyChars` lays it out key by key.
* `readKey_keyChars`: the reader takes it back to the path.
-/

namespace Bestiary.Toml

/-! ## Paths -/

/-- The text of the path of a table, as the writer extends it key by key. -/
def pathText (path : List String) : String := path.foldl below ""

/-- The keys of a path with dots between them. -/
def keyChars : List String → List Char
  | [] => []
  | [k] => (keyText k).toList
  | k :: k' :: path => (keyText k).toList ++ '.' :: keyChars (k' :: path)

theorem pathText_nil : pathText [] = "" := rfl

theorem pathText_append_singleton (path : List String) (k : String) :
    pathText (path ++ [k]) = below (pathText path) k := by
  unfold pathText
  rw [List.foldl_append, List.foldl_cons, List.foldl_nil]

theorem keyText_ne_empty (k : String) : keyText k ≠ "" := by
  unfold keyText
  split
  · rename_i h
    exact h.1
  · intro h
    have hlist := congrArg String.toList h
    rw [toList_quoted] at hlist
    exact absurd hlist (by simp)

theorem below_ne_empty (base k : String) : below base k ≠ "" := by
  unfold below
  split
  · exact keyText_ne_empty k
  · intro h
    have hlist := congrArg String.toList h
    rw [String.toList_append, String.toList_append] at hlist
    exact absurd hlist (by simp)

theorem pathText_eq_empty_iff {path : List String} : pathText path = "" ↔ path = [] := by
  constructor
  · intro h
    rcases List.eq_nil_or_concat path with rfl | ⟨init, k, rfl⟩
    · rfl
    · rw [List.concat_eq_append, pathText_append_singleton] at h
      exact absurd h (below_ne_empty _ k)
  · rintro rfl
    rfl

theorem keyChars_append_singleton {path : List String} (hpath : path ≠ []) (k : String) :
    keyChars (path ++ [k]) = keyChars path ++ '.' :: (keyText k).toList := by
  induction path with
  | nil => exact absurd rfl hpath
  | cons k₁ path ih =>
    cases path with
    | nil => rfl
    | cons k₂ path =>
      have hrest := ih (List.cons_ne_nil _ _)
      simp only [List.cons_append] at hrest ⊢
      simp only [keyChars, hrest, List.append_assoc, List.cons_append]

/-- The text of a path has its keys with dots between them. -/
theorem toList_pathText (path : List String) : (pathText path).toList = keyChars path := by
  induction path using List.reverseRecOn with
  | nil => rfl
  | append_singleton path k ih =>
    rw [pathText_append_singleton]
    unfold below
    by_cases hpath : path = []
    · subst hpath
      rw [pathText_nil, if_pos rfl]
      rfl
    · rw [if_neg (fun h => hpath (pathText_eq_empty_iff.mp h)), keyChars_append_singleton hpath]
      simp only [String.toList_append, ih]
      rw [List.append_assoc]
      rfl

/-! ## One key -/

theorem ne_of_isBare {c d : Char} (hc : isBare c = true) (hd : isBare d = false) : c ≠ d := by
  rintro rfl
  exact absurd (hc.symm.trans hd) (by decide)

/-- What comes after a key: neither part of a bare one nor a quote. -/
def EndsKey (rest : List Char) : Prop := ∀ c, rest.head? = some c → isBare c = false ∧ c ≠ '"'

/-- A key starts with a bare character or a quote. -/
theorem keyText_eq_cons (k : String) :
    ∃ c cs, (keyText k).toList = c :: cs ∧ (isBare c = true ∨ c = '"') := by
  unfold keyText
  split
  · rename_i h
    cases hk : k.toList with
    | nil => exact absurd (String.toList_eq_nil_iff.mp hk) h.1
    | cons c cs =>
      have hall := h.2
      rw [hk, List.all_cons, Bool.and_eq_true] at hall
      exact ⟨c, cs, rfl, .inl hall.1⟩
  · exact ⟨'"', _, toList_quoted k, .inr rfl⟩

/-- What a key starts with, said by what it is not. -/
theorem ne_of_startsKey {c d : Char} (hc : isBare c = true ∨ c = '"')
    (hd : isBare d = false ∧ d ≠ '"') : c ≠ d := by
  rcases hc with hc | rfl
  · exact ne_of_isBare hc hd.1
  · exact hd.2.symm

theorem isBlank_of_isBare {c : Char} (hc : isBare c = true) : isBlank c = false := by
  simp [isBlank, ne_of_isBare hc (d := ' ') rfl, ne_of_isBare hc (d := '\t') rfl]

/-- No blanks stand in front of a key. -/
theorem skipBlanks_keyText (k : String) (rest : List Char) :
    skipBlanks ((keyText k).toList ++ rest) = (keyText k).toList ++ rest := by
  obtain ⟨c, cs, hk, hc⟩ := keyText_eq_cons k
  have hblank : isBlank c = false := by
    rcases hc with hc | rfl
    · exact isBlank_of_isBare hc
    · rfl
  rw [hk]
  unfold skipBlanks
  rw [List.cons_append, List.dropWhile_cons_of_neg (by simp [hblank])]

variable {start rest : List Char} {stop : Char}

/-- A key in quotes. -/
theorem readKeyPart_quoted (hstop : isBare stop = false ∧ stop ≠ '"') (k : String)
    (hrest : rest.head? ≠ some '"') :
    readKeyPart start stop ((quoted k).toList ++ rest) = .ok (k, rest) := by
  have hopens := opensLines_quoted k hrest
  have hread := readQuoted_quoted k hrest
  rw [toList_quoted, List.cons_append] at hopens hread ⊢
  unfold readKeyPart
  simp only [hopens, hread, Ne.symm hstop.2, Char.reduceEq, decide_true, Bool.true_or, if_true,
    if_false, Bool.false_eq_true]

/-- A bare key. -/
theorem readKeyPart_bare (hstop : isBare stop = false) {k : String} (hne : k ≠ "")
    (hbare : k.toList.all isBare = true) (hrest : EndsKey rest) :
    readKeyPart start stop (k.toList ++ rest) = .ok (k, rest) := by
  have hall : ∀ c ∈ k.toList, isBare c = true := List.all_eq_true.mp hbare
  have hstops : rest.takeWhile isBare = [] ∧ rest.dropWhile isBare = rest := by
    cases rest with
    | nil => exact ⟨rfl, rfl⟩
    | cons c rest =>
      have hc := (hrest c rfl).1
      exact ⟨List.takeWhile_cons_of_neg (by simp [hc]), List.dropWhile_cons_of_neg (by simp [hc])⟩
  have htake : (k.toList ++ rest).takeWhile isBare = k.toList := by
    rw [List.takeWhile_append_of_pos hall, hstops.1, List.append_nil]
  have hdrop : (k.toList ++ rest).dropWhile isBare = rest := by
    rw [List.dropWhile_append_of_pos hall, hstops.2]
  cases hk : k.toList with
  | nil => exact absurd (String.toList_eq_nil_iff.mp hk) hne
  | cons c cs =>
    have hc : isBare c = true := hall c (hk ▸ List.mem_cons_self)
    rw [hk, List.cons_append] at htake hdrop
    rw [List.cons_append]
    unfold readKeyPart
    simp only [ne_of_isBare hc (d := '\x00') rfl, ne_of_isBare hc hstop,
      ne_of_isBare hc (d := '.') rfl, ne_of_isBare hc (d := '"') rfl,
      ne_of_isBare hc (d := '\'') rfl, hc, htake, hdrop, if_false, if_true, decide_false,
      Bool.or_self, Bool.false_eq_true]
    rw [← hk, String.ofList_toList]

/-- **A key that was written is read back.** -/
theorem readKeyPart_keyText (hstop : isBare stop = false ∧ stop ≠ '"') (k : String)
    (hrest : EndsKey rest) :
    readKeyPart start stop ((keyText k).toList ++ rest) = .ok (k, rest) := by
  unfold keyText
  split
  · rename_i h
    exact readKeyPart_bare hstop.1 h.1 h.2 hrest
  · exact readKeyPart_quoted hstop k fun hquote => (hrest '"' hquote).2 rfl

/-! ## Whole paths -/

theorem endsKey_cons {c : Char} (h : isBare c = false ∧ c ≠ '"') (cs : List Char) :
    EndsKey (c :: cs) := by
  intro d hd
  obtain rfl := Option.some.inj hd
  exact h

theorem readKeyParts_keyChars (hstop : isBare stop = false ∧ stop ≠ '"' ∧ stop ≠ '.')
    {after : List Char} (hafter : EndsKey after) (hskip : skipBlanks after = stop :: rest)
    {path : List String} (hpath : path ≠ []) {fuel : Nat} (hfuel : path.length ≤ fuel) :
    readKeyParts start stop fuel (keyChars path ++ after) = .ok (path, rest) := by
  induction path generalizing fuel with
  | nil => exact absurd rfl hpath
  | cons k path ih =>
    cases fuel with
    | zero => exact absurd hfuel (by simp)
    | succ fuel =>
      rw [readKeyParts]
      cases path with
      | nil =>
        simp only [keyChars, skipBlanks_keyText, readKeyPart_keyText ⟨hstop.1, hstop.2.1⟩ k hafter]
        simp [bind, Except.bind, pure, Except.pure, hskip, hstop.2.2]
      | cons k' path =>
        have hdot : EndsKey ('.' :: (keyChars (k' :: path) ++ after)) :=
          endsKey_cons (by decide) _
        have hblank : skipBlanks ('.' :: (keyChars (k' :: path) ++ after)) =
            '.' :: (keyChars (k' :: path) ++ after) := rfl
        have hrest := ih (List.cons_ne_nil _ _) (Nat.le_of_succ_le_succ hfuel)
        simp only [keyChars, List.append_assoc, List.cons_append, skipBlanks_keyText,
          readKeyPart_keyText ⟨hstop.1, hstop.2.1⟩ k hdot]
        simp [bind, Except.bind, pure, Except.pure, hblank, hrest]

theorem length_le_length_keyChars (path : List String) : path.length ≤ (keyChars path).length := by
  have hpos (k : String) : 0 < (keyText k).toList.length := by
    obtain ⟨c, cs, hk, -⟩ := keyText_eq_cons k
    simp [hk]
  induction path with
  | nil => exact Nat.zero_le _
  | cons k path ih =>
    have hk := hpos k
    cases path with
    | nil => exact hk
    | cons k' path =>
      simp only [keyChars, List.length_append, List.length_cons] at ih ⊢
      omega

/-- **The path of a table that was written is read back**, with blanks in front of its end or
without. -/
theorem readKey_keyChars (hstop : isBare stop = false ∧ stop ≠ '"' ∧ stop ≠ '.')
    {after : List Char} (hafter : EndsKey after) (hskip : skipBlanks after = stop :: rest)
    {path : List String} (hpath : path ≠ []) :
    readKey stop (keyChars path ++ after) = .ok (path, rest) := by
  refine readKeyParts_keyChars hstop hafter hskip hpath ?_
  have := length_le_length_keyChars path
  rw [List.length_append]
  omega

end Bestiary.Toml
