import Bestiary.Proofs.Toml.Draft
import Bestiary.Proofs.Toml.Value

/-!
# Reading declarations

How the reader gets from one place in a document to another. Blank lines change nothing, a line adds
an entry to the current table, a header opens a table.

* `Reaches` says that reading goes on from another place with other entries.
* `reaches_header`, `reaches_line` and `reaches_lineFeed` are its steps.
-/

namespace Bestiary.Toml

open Draft
open Loose (Reads)

/-- Reading `cs` after `p` goes on with `cs'` after `p'`. -/
def Reaches (p : Progress) (cs : List Char) (p' : Progress) (cs' : List Char) : Prop :=
  ∀ fuel, cs.length < fuel → ∃ fuel', cs'.length < fuel' ∧
    readDeclarations fuel p cs = readDeclarations fuel' p' cs'

theorem Reaches.refl (p : Progress) (cs : List Char) : Reaches p cs p cs :=
  fun fuel hfuel => ⟨fuel, hfuel, rfl⟩

theorem Reaches.trans {p p' p'' : Progress} {cs cs' cs'' : List Char} (h : Reaches p cs p' cs')
    (h' : Reaches p' cs' p'' cs'') : Reaches p cs p'' cs'' := by
  intro fuel hfuel
  obtain ⟨fuel', hfuel', hread⟩ := h fuel hfuel
  obtain ⟨fuel'', hfuel'', hread'⟩ := h' fuel' hfuel'
  exact ⟨fuel'', hfuel'', hread.trans hread'⟩

variable {p : Progress} {rest : List Char}

/-- A line may end in front of `rest`: there is a line feed, or nothing. -/
def AtLineEnd (rest : List Char) : Prop := rest = [] ∨ ∃ more, rest = '\n' :: more

theorem readLineEnd_atLineEnd (h : AtLineEnd rest) : readLineEnd rest = .ok rest := by
  rcases h with rfl | ⟨more, rfl⟩
  · rfl
  · rfl

/-- Where nothing is left, reading is over. -/
theorem readDeclarations_nil {fuel : Nat} : readDeclarations fuel p [] = .ok p := by
  cases fuel <;> rfl

/-- A blank line changes nothing. -/
theorem reaches_lineFeed (p : Progress) (rest : List Char) : Reaches p ('\n' :: rest) p rest := by
  intro fuel hfuel
  rw [List.length_cons] at hfuel
  refine ⟨fuel, by omega, ?_⟩
  cases fuel with
  | zero => exact absurd hfuel (Nat.not_lt_zero _)
  | succ fuel => rfl

/-- One declaration. -/
theorem readDeclarations_succ {c : Char} (hc : isSolid c = true) (cs : List Char) (fuel : Nat) :
    readDeclarations (fuel + 1) p (c :: cs) =
      (readDeclaration p (c :: cs)).bind fun r =>
        (readLineEnd r.2).bind fun rest => readDeclarations fuel r.1 rest := by
  rw [readDeclarations, skipVoid_of_isSolid hc]
  rfl

theorem reaches_declaration {c : Char} (hc : isSolid c = true) {cs : List Char} {p' : Progress}
    (hread : readDeclaration p (c :: cs) = .ok (p', rest)) (hrest : AtLineEnd rest)
    (hlen : rest.length ≤ cs.length) : Reaches p (c :: cs) p' rest := by
  intro fuel hfuel
  rw [List.length_cons] at hfuel
  obtain ⟨fuel, rfl⟩ := exists_fuel hfuel
  refine ⟨fuel, by omega, ?_⟩
  rw [readDeclarations_succ hc, hread]
  simp only [Except.bind, readLineEnd_atLineEnd hrest]

/-! ## Headers -/

/-- The characters of a header in single or double brackets. -/
def headerChars (element : Bool) (path : List String) : List Char :=
  if element then '[' :: '[' :: (keyChars path ++ [']', ']'])
  else '[' :: (keyChars path ++ [']'])

theorem headerChars_eq_cons (element : Bool) (path : List String) :
    ∃ cs, headerChars element path = '[' :: cs := by
  cases element with
  | true => exact ⟨_, rfl⟩
  | false => exact ⟨_, rfl⟩

theorem keyChars_eq_cons {path : List String} (hpath : path ≠ []) :
    ∃ c cs, keyChars path = c :: cs ∧ (isBare c = true ∨ c = '"') := by
  cases path with
  | nil => exact absurd rfl hpath
  | cons k path =>
    obtain ⟨c, cs, hk, hc⟩ := keyText_eq_cons k
    cases path with
    | nil => exact ⟨c, cs, hk, hc⟩
    | cons k' path =>
      refine ⟨c, cs ++ '.' :: keyChars (k' :: path), ?_, hc⟩
      rw [keyChars, hk, List.cons_append]

theorem readKey_header {path : List String} (hpath : path ≠ []) (rest : List Char) :
    readKey ']' (keyChars path ++ ']' :: rest) = .ok (path, rest) :=
  readKey_keyChars (by decide) (endsKey_cons (by decide) _) rfl hpath

/-- A header is read as the opening of its table, or refused where that is not allowed. -/
theorem exists_readDeclaration_header (element : Bool) {path : List String} (hpath : path ≠ [])
    (rest : List Char) :
    ∃ stop, ∀ p : Progress, readDeclaration p (headerChars element path ++ rest) =
      (openHeader? element p.entries path).elim (.error stop) fun es => .ok (⟨es, path⟩, rest) := by
  cases element with
  | true =>
    refine ⟨⟨.redefinedEntry, keyChars path ++ ']' :: ']' :: rest⟩, fun p => ?_⟩
    have hchars : headerChars true path ++ rest =
        '[' :: '[' :: (keyChars path ++ ']' :: ']' :: rest) := by
      simp [headerChars]
    rw [hchars]
    simp only [readDeclaration, readElementHeader, readKey_header hpath, readSecondBracket,
      openHeader?, if_true, bind, Except.bind]
    cases openElement? p.entries path <;> rfl
  | false =>
    refine ⟨⟨.redefinedEntry, keyChars path ++ ']' :: rest⟩, fun p => ?_⟩
    obtain ⟨c, cs, hcs, hc⟩ := keyChars_eq_cons hpath
    have hbracket : c ≠ '[' := ne_of_startsKey hc (by decide)
    have hchars : headerChars false path ++ rest = '[' :: (keyChars path ++ ']' :: rest) := by
      simp [headerChars]
    have hsingle : readDeclaration p ('[' :: (keyChars path ++ ']' :: rest)) =
        readHeader p (keyChars path ++ ']' :: rest) := by
      rw [hcs, List.cons_append]
      unfold readDeclaration
      split
      · rename_i h
        exact absurd (List.cons.inj (List.cons.inj h).2).1 hbracket
      · rename_i h
        rw [(List.cons.inj h).2]
      · rename_i h
        exact absurd rfl (h _)
    rw [hchars, hsingle]
    simp only [readHeader, readKey_header hpath, openHeader?, Bool.false_eq_true, if_false, bind,
      Except.bind]
    cases openTable? p.entries path <;> rfl

/-- **A header opens its table.** -/
theorem reaches_header (element : Bool) {path : List String} (hpath : path ≠ [])
    {es : Table Draft} (hopen : openHeader? element p.entries path = some es)
    (hrest : AtLineEnd rest) :
    Reaches p (headerChars element path ++ rest) ⟨es, path⟩ rest := by
  obtain ⟨stop, hread⟩ := exists_readDeclaration_header element hpath rest
  have hread := hread p
  rw [hopen, Option.elim_some] at hread
  obtain ⟨cs, hcs⟩ := headerChars_eq_cons element path
  rw [hcs, List.cons_append] at hread ⊢
  refine reaches_declaration rfl hread hrest ?_
  rw [List.length_append]
  omega

/-- What a header does depends on nothing but what it opens. -/
theorem reaches_of_openHeader?_eq {element : Bool} {path : List String} (hpath : path ≠ [])
    {p p' : Progress}
    (hopen : openHeader? element p.entries path = openHeader? element p'.entries path)
    (more : List Char) :
    Reaches p (headerChars element path ++ more) p' (headerChars element path ++ more) := by
  intro fuel hfuel
  refine ⟨fuel, hfuel, ?_⟩
  obtain ⟨stop, hdeclaration⟩ := exists_readDeclaration_header element hpath more
  have hp := hdeclaration p
  rw [hopen, ← hdeclaration p'] at hp
  obtain ⟨fuel, rfl⟩ := exists_fuel hfuel
  obtain ⟨tail, htail⟩ := headerChars_eq_cons element path
  rw [htail, List.cons_append] at hp ⊢
  rw [readDeclarations_succ rfl, readDeclarations_succ rfl, hp]

/-! ## Lines -/

/-- The text of a line that reads back. -/
def LineReadsBack (line : String) (e : String × Value) : Prop :=
  ∃ text, line = keyText e.1 ++ " = " ++ text ++ "\n" ∧ ReadsBack nestingLimit text e.2

theorem readDeclaration_key (k : String) :
    readDeclaration p ((keyText k).toList ++ rest) = readPair p ((keyText k).toList ++ rest) := by
  obtain ⟨c, cs, hcs, hc⟩ := keyText_eq_cons k
  have hbracket : c ≠ '[' := ne_of_startsKey hc (by decide)
  rw [hcs, List.cons_append]
  unfold readDeclaration
  split
  · rename_i h
    exact absurd (List.cons.inj h).1 hbracket
  · rename_i h
    exact absurd (List.cons.inj h).1 hbracket
  · rfl

/-- A line starts with its key. -/
theorem exists_line_eq_cons (k text : String) (rest : List Char) :
    ∃ c cs, (keyText k ++ " = " ++ text ++ "\n").toList ++ rest = c :: (cs ++ '\n' :: rest) ∧
      isSolid c = true := by
  obtain ⟨c, tail, hcs, hc⟩ := startsSolid_keyText k
  exact ⟨c, tail ++ " = ".toList ++ text.toList, by simp [hcs], hc⟩

/-- A line is read as its value is, and what is read goes into the current table. -/
theorem exists_readDeclaration_line {path : List String} {C : Table Draft → Table Draft}
    (hC : Surrounds path C) {es : Table Draft} {k : String} (hk : es.get? k = none) {text : String}
    (htext : StartsSolid text.toList) (rest : List Char) :
    ∃ fuel, text.toList.length < fuel ∧
      readDeclaration ⟨C es, path⟩ ((keyText k ++ " = " ++ text ++ "\n").toList ++ rest) =
        (readValue fuel nestingLimit none (text.toList ++ '\n' :: rest)).map fun r =>
          (⟨C (es.set k (.value r.1)), path⟩, r.2) := by
  obtain ⟨c, tail, hcs, hc⟩ := htext
  obtain ⟨after, hkey, hblanks⟩ := readKey_entry k hc (tail ++ '\n' :: rest)
  have hchars : (keyText k ++ " = " ++ text ++ "\n").toList ++ rest =
      (keyText k).toList ++ (" = ".toList ++ c :: (tail ++ '\n' :: rest)) := by
    simp [hcs]
  have hchange (d : Loose) : changeAt? (C es) path (assign? · [k] d) =
      some (C (es.set k (.value d))) := by
    have hhere := hC.changes es [] (assign? · [k] d)
    rw [List.append_nil] at hhere
    rw [hhere, changeAt?, assign?_singleton hk]
    rfl
  refine ⟨2 * after.length + 2, ?_, ?_⟩
  · have hlen : (c :: (tail ++ '\n' :: rest)).length ≤ after.length := by
      rw [← hblanks]
      exact (List.dropWhile_sublist _).length_le
    rw [hcs]
    simp only [List.length_cons, List.length_append] at hlen ⊢
    omega
  · rw [hchars, readDeclaration_key, hcs, List.cons_append]
    simp only [readPair, hkey, hchange, hblanks, bind, Except.bind, pure, Except.pure,
      Option.isNone_some, Bool.false_eq_true, if_false, Option.getD_some]
    cases readValue (2 * after.length + 2) nestingLimit none (c :: (tail ++ '\n' :: rest)) <;> rfl

/-- **A line adds its entry to the current table.** -/
theorem reaches_line {path : List String} {C : Table Draft → Table Draft} (hC : Surrounds path C)
    {es : Table Draft} {k : String} (hk : es.get? k = none) {v : Value} {line : String}
    (hline : LineReadsBack line (k, v)) (rest : List Char) :
    ∃ d, Reaches ⟨C es, path⟩ (line.toList ++ rest) ⟨C (es.set k (.value d)), path⟩ rest ∧
      Reads d v := by
  obtain ⟨text, rfl, hback⟩ := hline
  obtain ⟨fuel, hfuel, hread⟩ := exists_readDeclaration_line hC hk hback.solid rest
  obtain ⟨d, hd, hreads⟩ := hback.reads (.inl rfl) (numeralEnds_cons (c := '\n') rfl rest) hfuel
    (Nat.le_refl _)
  refine ⟨d, ?_, hreads⟩
  obtain ⟨c, cs, hcs, hc⟩ := exists_line_eq_cons k text rest
  rw [hd, hcs] at hread
  rw [hcs]
  exact (reaches_declaration hc hread (.inr ⟨rest, rfl⟩)
    (List.suffix_append cs _).length_le).trans (reaches_lineFeed _ _)

end Bestiary.Toml
