import Bestiary.Proofs.Toml.Key
import Bestiary.Proofs.Toml.NumberText
import Bestiary.Proofs.Toml.Reads

/-!
# Values in lines read back

A value that was written in a line is read back from it, whatever stands behind it that can stand
behind a value.

* `Data.HasNumber` says that a number stands in a value.
* `ReadsBack` says of a text and a value that the text is read back as it.
* `readArray_listed` and `readInline_listed`: lists and tables of texts that read back.
* `readsBack_valueText`: every value whose numbers are spelled, by induction on it.
-/

namespace Bestiary

/-! ## Numbers in values -/

/-- The number stands somewhere in the data. -/
inductive Data.HasNumber {ε : Type} (x : Number) : Data ε → Prop
  | here : HasNumber x (.number x)
  | item {d : Data ε} {items : List (Data ε)} (hmem : d ∈ items) (h : HasNumber x d) :
      HasNumber x (.list items)
  | entry {e : String × Data ε} {entries : Table (Data ε)} (hmem : e ∈ entries)
      (h : HasNumber x e.2) : HasNumber x (.table entries)

namespace Toml

open Loose (Reads)

/-- The numbers of a value are written as numerals that are read as them. -/
def Spelled (numeral : Number → String) (v : Value) : Prop :=
  ∀ x, v.HasNumber x → SpellsNumber (numeral x).toList x

namespace Spelled

variable {numeral : Number → String} {items : List Value} {entries : Table Value}

theorem item (h : Spelled numeral (.list items)) {v : Value} (hv : v ∈ items) :
    Spelled numeral v := fun x hx => h x (.item hv hx)

theorem entry (h : Spelled numeral (.table entries)) {e : String × Value} (he : e ∈ entries) :
    Spelled numeral e.2 := fun x hx => h x (.entry he hx)

end Spelled

/-! ## First characters -/

/-- Whether a character can be the first of a value or a key: it is not skipped and closes
nothing. -/
def isSolid (c : Char) : Bool :=
  !isBlank c && c ≠ '\n' && c ≠ '\r' && c ≠ '#' && c ≠ ']' && c ≠ '}'

/-- The characters start with a solid one. -/
def StartsSolid (cs : List Char) : Prop := ∃ c tail, cs = c :: tail ∧ isSolid c = true

theorem isSolid_of_isBare {c : Char} (hc : isBare c = true) : isSolid c = true := by
  simp [isSolid, isBlank_of_isBare hc, ne_of_isBare hc (d := '\n') rfl,
    ne_of_isBare hc (d := '\r') rfl, ne_of_isBare hc (d := '#') rfl,
    ne_of_isBare hc (d := ']') rfl, ne_of_isBare hc (d := '}') rfl]

theorem isSolid_of_isDigit {c : Char} (hc : Text.isDigit c = true) : isSolid c = true :=
  isSolid_of_isBare (by simp [isBare, hc])

theorem ne_of_isSolid {c d : Char} (hc : isSolid c = true) (hd : isSolid d = false) : c ≠ d := by
  rintro rfl
  exact absurd hc (by simp [hd])

theorem skipVoid_of_isSolid {c : Char} (hc : isSolid c = true) (cs : List Char) :
    skipVoid false (c :: cs) = .ok (c :: cs) := by
  simp only [isSolid, Bool.and_eq_true, Bool.not_eq_true', decide_eq_true_eq, ne_eq] at hc
  obtain ⟨⟨⟨⟨⟨hblank, hfeed⟩, hreturn⟩, hcomment⟩, -⟩, -⟩ := hc
  rw [skipVoid]
  simp [hblank, hfeed, hcomment, endsLine, hreturn]

theorem skipBlanks_of_isSolid {c : Char} (hc : isSolid c = true) (cs : List Char) :
    skipBlanks (c :: cs) = c :: cs := by
  simp only [isSolid, Bool.and_eq_true, Bool.not_eq_true'] at hc
  exact List.dropWhile_cons_of_neg (by simp [hc.1.1.1.1.1])

theorem startsSolid_keyText (k : String) : StartsSolid (keyText k).toList := by
  obtain ⟨c, cs, hk, hc⟩ := keyText_eq_cons k
  refine ⟨c, cs, hk, ?_⟩
  rcases hc with hc | rfl
  · exact isSolid_of_isBare hc
  · rfl

/-! ## What reads back -/

/-- The text stands for the value wherever a value can stand and `depth` structures may be
opened. -/
structure ReadsBack (depth : Nat) (text : String) (v : Value) : Prop where
  solid : StartsSolid text.toList
  reads : ∀ {closing : Option Char} {rest : List Char} {fuel limit : Nat}, IsClosing closing →
    numeralEnds closing rest = true → text.toList.length < fuel → depth ≤ limit →
    ∃ d, readValue fuel limit closing (text.toList ++ rest) = .ok (d, rest) ∧ Reads d v

/-- Texts in a row behind an opening bracket, up to the closing one. -/
def listedChars (bracket : Char) : List String → List Char
  | [] => []
  | [text] => ' ' :: (text.toList ++ [' ', bracket])
  | text :: text' :: texts => ' ' :: (text.toList ++ ',' :: listedChars bracket (text' :: texts))

theorem toList_intercalate_listed (bracket : Char) (text : String) (texts : List String) :
    ' ' :: ((", ".intercalate (text :: texts)).toList ++ [' ', bracket]) =
      listedChars bracket (text :: texts) := by
  induction texts generalizing text with
  | nil =>
    rw [String.intercalate_singleton]
    rfl
  | cons text' texts ih =>
    rw [String.intercalate_cons_cons, listedChars, ← ih]
    simp

/-! ## Arrays -/

variable {start rest cs : List Char} {fuel limit depth : Nat}

theorem numeralEnds_cons {closing : Option Char} {c : Char} (hc : endsNumeral closing c = true)
    (rest : List Char) : numeralEnds closing (c :: rest) = true := hc

/-- One item of a row, and what follows it. -/
theorem readArray_item {c : Char} (hc : isSolid c = true) :
    readArray (fuel + 1) limit start (' ' :: c :: cs) =
      (readValue fuel limit (some ']') (c :: cs)).bind fun item =>
        (skipVoid false item.2).bind fun
          | ',' :: rest => (readArray fuel limit start rest).map fun more =>
              (item.1 :: more.1, more.2)
          | ']' :: rest => .ok ([item.1], rest)
          | rest => .error ⟨.separator, rest⟩ := by
  have hskip : skipVoid false (' ' :: c :: cs) = .ok (c :: cs) := skipVoid_of_isSolid hc cs
  have hbracket : c ≠ ']' := ne_of_isSolid hc rfl
  rw [readArray, hskip]
  · simp only [bind, Except.bind, pure, Except.pure]
    split
    · rename_i h
      exact absurd (List.cons.inj h).1 hbracket
    · rfl
  · simp

theorem readArray_more {c : Char} (hc : isSolid c = true) {d : Loose}
    (hread : readValue fuel limit (some ']') (c :: cs) = .ok (d, ',' :: rest)) :
    readArray (fuel + 1) limit start (' ' :: c :: cs) =
      (readArray fuel limit start rest).map fun more => (d :: more.1, more.2) := by
  rw [readArray_item hc, hread]
  rfl

/-- **A row of items is read back item by item.** -/
theorem readArray_listed (hlimit : depth ≤ limit) {texts : List String} {items : List Value}
    (h : List.Forall₂ (ReadsBack depth) texts items) (hne : texts ≠ [])
    (hfuel : (listedChars ']' texts).length < fuel) (start rest : List Char) :
    ∃ ds, readArray fuel limit start (listedChars ']' texts ++ rest) = .ok (ds, rest) ∧
      List.Forall₂ Reads ds items := by
  induction h generalizing fuel with
  | nil => exact absurd rfl hne
  | @cons text v texts items htext htexts ih =>
    obtain ⟨c, tail, hcs, hc⟩ := htext.solid
    cases fuel with
    | zero => exact absurd hfuel (Nat.not_lt_zero _)
    | succ fuel =>
      cases texts with
      | nil =>
        cases htexts
        simp only [listedChars, List.length_cons, List.length_append] at hfuel
        have hlt : text.toList.length < fuel := by omega
        obtain ⟨d, hd, hreads⟩ := htext.reads (.inr (.inl rfl))
          (numeralEnds_cons (c := ' ') rfl (']' :: rest)) hlt hlimit
        refine ⟨[d], ?_, .cons hreads .nil⟩
        simp only [listedChars, List.cons_append, List.append_assoc, List.nil_append]
        rw [hcs, List.cons_append] at hd ⊢
        rw [readArray_item hc, hd]
        rfl
      | cons text' texts =>
        simp only [listedChars, List.length_cons, List.length_append] at hfuel
        have hlt : text.toList.length < fuel := by omega
        have hmore : (listedChars ']' (text' :: texts)).length < fuel := by omega
        obtain ⟨d, hd, hreads⟩ := htext.reads (.inr (.inl rfl))
          (numeralEnds_cons (c := ',') rfl (listedChars ']' (text' :: texts) ++ rest)) hlt hlimit
        obtain ⟨ds, hds, hall⟩ := ih (List.cons_ne_nil _ _) hmore
        refine ⟨d :: ds, ?_, .cons hreads hall⟩
        simp only [listedChars, List.cons_append, List.append_assoc]
        rw [hcs, List.cons_append] at hd ⊢
        rw [readArray_more hc hd, hds]
        rfl

/-! ## Inline tables -/

/-- The text of an entry that reads back. -/
def EntryReadsBack (depth : Nat) (text : String) (e : String × Value) : Prop :=
  ∃ valueText, text = keyText e.1 ++ " = " ++ valueText ∧ ReadsBack depth valueText e.2

theorem admits_singleton {es : Table Draft} {k : String} (hk : es.get? k = none) :
    Draft.admits es [k] = true := by
  simp [Draft.admits, Draft.assign?, Table.has, hk]

theorem assign?_singleton {es : Table Draft} {k : String} (hk : es.get? k = none) (d : Loose) :
    Draft.assign? es [k] d = some (es.set k (.value d)) := by
  simp [Draft.assign?, Table.has, hk]

/-- The key of an entry and the sign behind it. -/
theorem readKey_entry (k : String) {c : Char} (hc : isSolid c = true) (cs : List Char) :
    ∃ rest, readKey '=' ((keyText k).toList ++ (" = ".toList ++ c :: cs)) = .ok ([k], rest) ∧
      skipBlanks rest = c :: cs := by
  have hafter : EndsKey (" = ".toList ++ c :: cs) := endsKey_cons (by decide) _
  have hkey : readKey '=' (keyChars [k] ++ (" = ".toList ++ c :: cs)) = .ok ([k], ' ' :: c :: cs) :=
    readKey_keyChars (by decide) hafter rfl (List.cons_ne_nil _ _)
  exact ⟨' ' :: c :: cs, hkey, skipBlanks_of_isSolid hc cs⟩

variable {es : Table Draft} {k : String}

/-- One entry of a row, and what follows it. -/
theorem readInline_entry {c c' : Char} (hc : isSolid c = true) (hc' : isSolid c' = true)
    {cs' : List Char} (hkey : ((keyText k).toList ++ (" = ".toList ++ c' :: cs')) = c :: cs)
    (hk : es.get? k = none) :
    readInline (fuel + 1) limit start es (' ' :: c :: cs) =
      (readValue fuel limit (some '}') (c' :: cs')).bind fun value =>
        (skipVoid false value.2).bind fun
          | ',' :: rest => readInline fuel limit start (es.set k (.value value.1)) rest
          | '}' :: rest => .ok (es.set k (.value value.1), rest)
          | rest => .error ⟨.separator, rest⟩ := by
  have hskip : skipVoid false (' ' :: c :: cs) = .ok (c :: cs) := skipVoid_of_isSolid hc cs
  have hbracket : c ≠ '}' := ne_of_isSolid hc rfl
  obtain ⟨after, hafter, hblanks⟩ := readKey_entry k hc' cs'
  rw [hkey] at hafter
  rw [readInline, hskip]
  · simp only [bind, Except.bind, pure, Except.pure]
    split
    · rename_i h
      exact absurd (List.cons.inj h).1 hbracket
    · simp only [hafter, hblanks, admits_singleton hk, assign?_singleton hk]
      rfl
  · simp

/-- **A row of entries is read back entry by entry**, into a table that has none of the keys. -/
theorem readInline_listed (hlimit : depth ≤ limit) {texts : List String} {entries : Table Value}
    (h : List.Forall₂ (EntryReadsBack depth) texts entries) (hne : texts ≠ [])
    (hfuel : (listedChars '}' texts).length < fuel) {es : Table Draft} {done : Table Value}
    (hcovers : Covers es done) (hn : (Table.keys (entries ++ done)).Nodup)
    (start rest : List Char) :
    ∃ es', readInline fuel limit start es (listedChars '}' texts ++ rest) = .ok (es', rest) ∧
      Covers es' (entries ++ done) := by
  induction h generalizing fuel es done with
  | nil => exact absurd rfl hne
  | @cons text e texts entries htext htexts ih =>
    obtain ⟨k, v⟩ := e
    obtain ⟨vtext, rfl, hback⟩ := htext
    obtain ⟨c, tail, hcs, hc⟩ := startsSolid_keyText k
    obtain ⟨c', tail', hcs', hc'⟩ := hback.solid
    have hk : es.get? k = none := hcovers.get?_eq_none_of_nodup hn
    cases fuel with
    | zero => exact absurd hfuel (Nat.not_lt_zero _)
    | succ fuel =>
      cases texts with
      | nil =>
        cases htexts
        simp only [listedChars, List.length_cons, List.length_append, String.toList_append]
          at hfuel
        have hlt : vtext.toList.length < fuel := by omega
        obtain ⟨d, hd, hreads⟩ := hback.reads (.inr (.inr rfl))
          (numeralEnds_cons (c := ' ') rfl ('}' :: rest)) hlt hlimit
        refine ⟨es.set k (.value d), ?_, hcovers.set hk hreads⟩
        simp only [listedChars, List.cons_append, List.append_assoc, List.nil_append,
          String.toList_append]
        rw [hcs', List.cons_append] at hd
        rw [hcs, hcs', List.cons_append, List.cons_append,
          readInline_entry hc hc' (by rw [hcs]; rfl) hk, hd]
        rfl
      | cons text' texts =>
        simp only [listedChars, List.length_cons, List.length_append, String.toList_append]
          at hfuel
        have hlt : vtext.toList.length < fuel := by omega
        have hmore : (listedChars '}' (text' :: texts)).length < fuel := by omega
        obtain ⟨d, hd, hreads⟩ := hback.reads (.inr (.inr rfl))
          (numeralEnds_cons (c := ',') rfl (listedChars '}' (text' :: texts) ++ rest)) hlt hlimit
        have hset : Covers (es.set k (.value d)) ((k, v) :: done) := hcovers.set hk hreads
        obtain ⟨es', hes', hcovers'⟩ :=
          ih (List.cons_ne_nil _ _) hmore hset (nodup_keys_middle hn)
        refine ⟨es', ?_, hcovers'.perm List.perm_middle⟩
        simp only [listedChars, List.cons_append, List.append_assoc, String.toList_append]
        rw [hcs', List.cons_append] at hd
        rw [hcs, hcs', List.cons_append, List.cons_append,
          readInline_entry hc hc' (by rw [hcs]; rfl) hk, hd]
        exact hes'

/-! ## Values -/

/-- A quote does not end a numeral. -/
theorem head?_ne_quote {closing : Option Char} (hclosing : IsClosing closing)
    (hends : numeralEnds closing rest = true) : rest.head? ≠ some '"' := by
  intro h
  cases rest with
  | nil => exact absurd h (by simp)
  | cons c rest =>
    obtain rfl : c = '"' := Option.some.inj h
    have hquote : endsNumeral closing '"' = true := hends
    rcases hclosing with rfl | rfl | rfl <;> exact absurd hquote (by decide)

theorem exists_fuel {n : Nat} (h : n < fuel) : ∃ f, fuel = f + 1 := ⟨fuel - 1, by omega⟩

theorem readsBack_text (s : String) : ReadsBack depth (quoted s) (.text s) := by
  refine ⟨⟨'"', _, toList_quoted s, rfl⟩, ?_⟩
  intro closing rest fuel limit hclosing hends hfuel _
  obtain ⟨fuel, rfl⟩ := exists_fuel hfuel
  have hread := readQuoted_quoted s (head?_ne_quote hclosing hends)
  refine ⟨.text s, ?_, Loose.reads_text s⟩
  rw [toList_quoted, List.cons_append] at hread ⊢
  rw [readValue, hread]
  rfl

theorem readValue_eq_readScalar {closing : Option Char} {c : Char}
    (hc : c = '-' ∨ Text.isDigit c = true) :
    readValue (fuel + 1) limit closing (c :: cs) = readScalar closing (c :: cs) := by
  have hne (d : Char) (hd : d ≠ '-' ∧ Text.isDigit d = false) : c ≠ d := by
    rcases hc with rfl | hc
    · exact hd.1.symm
    · exact ne_of_isDigit hc hd.2
  rw [readValue]
  all_goals
    intro rest h
    exact absurd (List.cons.inj h).1 (hne _ (by decide))

theorem startsSolid_of_spells {cs : List Char} {outcome : List Char → Except Stop Loose}
    (h : Spells cs outcome) : StartsSolid cs := by
  obtain ⟨c, tail, rfl, hc⟩ := h.eq_cons
  refine ⟨c, tail, rfl, ?_⟩
  rcases hc with rfl | hc
  · rfl
  · exact isSolid_of_isDigit hc

/-- What a value that starts with a numeral comes to. -/
theorem readValue_of_spells {outcome : List Char → Except Stop Loose} (h : Spells cs outcome)
    {closing : Option Char} (hclosing : IsClosing closing)
    (hends : numeralEnds closing rest = true) :
    readValue (fuel + 1) limit closing (cs ++ rest) =
      (outcome (cs ++ rest)).map fun d => (d, rest) := by
  have hread := h.readScalar_append hclosing hends
  obtain ⟨c, tail, rfl, hc⟩ := h.eq_cons
  rw [List.cons_append] at hread ⊢
  rw [readValue_eq_readScalar hc, hread]

theorem readsBack_number {text : String} {x : Number} (h : SpellsNumber text.toList x) :
    ReadsBack depth text (.number x) := by
  refine ⟨startsSolid_of_spells h, ?_⟩
  intro closing rest fuel limit hclosing hends hfuel _
  obtain ⟨fuel, rfl⟩ := exists_fuel hfuel
  exact ⟨.number x, readValue_of_spells h hclosing hends, Loose.reads_number x⟩

theorem readsBack_flag (b : Bool) : ReadsBack depth (Json.flagText b) (.flag b) := by
  cases b with
  | true =>
    refine ⟨⟨'t', _, rfl, rfl⟩, ?_⟩
    intro closing rest fuel limit _ _ hfuel _
    obtain ⟨fuel, rfl⟩ := exists_fuel hfuel
    exact ⟨.flag true, rfl, Loose.reads_flag true⟩
  | false =>
    refine ⟨⟨'f', _, rfl, rfl⟩, ?_⟩
    intro closing rest fuel limit _ _ hfuel _
    obtain ⟨fuel, rfl⟩ := exists_fuel hfuel
    exact ⟨.flag false, rfl, Loose.reads_flag false⟩

theorem toList_listText (text : String) (texts : List String) :
    ("[ " ++ ", ".intercalate (text :: texts) ++ " ]").toList =
      '[' :: listedChars ']' (text :: texts) := by
  rw [← toList_intercalate_listed]
  simp

theorem readValue_list (fuel limit : Nat) (closing : Option Char) (cs : List Char) :
    readValue (fuel + 1) (limit + 1) closing ('[' :: cs) =
      (readArray fuel limit ('[' :: cs) cs).map fun r => (.list r.1, r.2) := by
  rw [readValue, if_neg (Nat.succ_ne_zero _), Nat.add_sub_cancel]
  cases readArray fuel limit ('[' :: cs) cs <;> rfl

/-- A list in a line. -/
theorem readsBack_list {texts : List String} {items : List Value}
    (h : List.Forall₂ (ReadsBack depth) texts items) :
    ReadsBack (depth + 1)
      (if texts.isEmpty then "[]" else "[ " ++ ", ".intercalate texts ++ " ]") (.list items) := by
  cases texts with
  | nil =>
    cases h
    refine ⟨⟨'[', _, rfl, rfl⟩, ?_⟩
    intro closing rest fuel limit _ _ hfuel hlimit
    obtain ⟨fuel, rfl⟩ := exists_fuel hfuel
    obtain ⟨fuel, rfl⟩ := exists_fuel (Nat.lt_of_succ_lt_succ hfuel)
    obtain ⟨limit, rfl⟩ := exists_fuel hlimit
    exact ⟨.list [], rfl, Loose.reads_list .nil⟩
  | cons text texts =>
    have hchars := toList_listText text texts
    rw [List.isEmpty_cons, if_neg Bool.false_ne_true]
    refine ⟨⟨'[', _, hchars, rfl⟩, ?_⟩
    intro closing rest fuel limit _ _ hfuel hlimit
    rw [hchars, List.length_cons] at hfuel
    obtain ⟨fuel, rfl⟩ := exists_fuel hfuel
    obtain ⟨limit, rfl⟩ := exists_fuel hlimit
    obtain ⟨ds, hds, hreads⟩ := readArray_listed (Nat.le_of_succ_le_succ hlimit) h
      (List.cons_ne_nil _ _) (Nat.lt_of_succ_lt_succ hfuel)
      ('[' :: (listedChars ']' (text :: texts) ++ rest)) rest
    refine ⟨.list ds, ?_, Loose.reads_list hreads⟩
    rw [hchars, List.cons_append, readValue_list, hds]
    rfl

theorem toList_inlineText (text : String) (texts : List String) :
    ("\x7b " ++ ", ".intercalate (text :: texts) ++ " \x7d").toList =
      '{' :: listedChars '}' (text :: texts) := by
  rw [← toList_intercalate_listed]
  simp

theorem readValue_inline (fuel limit : Nat) (closing : Option Char) (cs : List Char) :
    readValue (fuel + 1) (limit + 1) closing ('{' :: cs) =
      (readInline fuel limit ('{' :: cs) [] cs).map fun r =>
        (.table (Draft.finishEntries r.1), r.2) := by
  rw [readValue, if_neg (Nat.succ_ne_zero _), Nat.add_sub_cancel]
  cases readInline fuel limit ('{' :: cs) [] cs <;> rfl

/-- A table in a line. -/
theorem readsBack_table {texts : List String} {entries : Table Value}
    (h : List.Forall₂ (EntryReadsBack depth) texts entries) (hn : entries.keys.Nodup) :
    ReadsBack (depth + 1)
      (if texts.isEmpty then "\x7b\x7d" else "\x7b " ++ ", ".intercalate texts ++ " \x7d")
      (.table entries) := by
  cases texts with
  | nil =>
    cases h
    refine ⟨⟨'{', _, rfl, rfl⟩, ?_⟩
    intro closing rest fuel limit _ _ hfuel hlimit
    obtain ⟨fuel, rfl⟩ := exists_fuel hfuel
    obtain ⟨fuel, rfl⟩ := exists_fuel (Nat.lt_of_succ_lt_succ hfuel)
    obtain ⟨limit, rfl⟩ := exists_fuel hlimit
    exact ⟨.table [], rfl, covers_nil.reads hn⟩
  | cons text texts =>
    have hchars := toList_inlineText text texts
    rw [List.isEmpty_cons, if_neg Bool.false_ne_true]
    refine ⟨⟨'{', _, hchars, rfl⟩, ?_⟩
    intro closing rest fuel limit _ _ hfuel hlimit
    rw [hchars, List.length_cons] at hfuel
    obtain ⟨fuel, rfl⟩ := exists_fuel hfuel
    obtain ⟨limit, rfl⟩ := exists_fuel hlimit
    have hnone : (Table.keys (entries ++ [])).Nodup := by
      rw [List.append_nil]
      exact hn
    obtain ⟨es, hes, hcovers⟩ := readInline_listed (Nat.le_of_succ_le_succ hlimit) h
      (List.cons_ne_nil _ _) (Nat.lt_of_succ_lt_succ hfuel) covers_nil hnone
      ('{' :: (listedChars '}' (text :: texts) ++ rest)) rest
    rw [List.append_nil] at hcovers
    refine ⟨.table (Draft.finishEntries es), ?_, hcovers.reads hn⟩
    rw [hchars, List.cons_append, readValue_inline, hes]
    rfl

/-! ## What is written -/

theorem forall₂_imp_of_mem {α β : Type} {R S : α → β → Prop} {as : List α} {bs : List β}
    (h : List.Forall₂ R as bs) (himp : ∀ a, ∀ b ∈ bs, R a b → S a b) : List.Forall₂ S as bs := by
  induction h with
  | nil => exact .nil
  | cons hab _ ih =>
    exact .cons (himp _ _ List.mem_cons_self hab)
      (ih fun a b hb => himp a b (List.mem_cons_of_mem _ hb))

variable {numeral : Number → String}

/-- The texts of items are those of each. -/
theorem forall₂_itemTexts {items : List Value} {texts : List String}
    (h : itemTexts numeral depth items = .ok texts) :
    List.Forall₂ (fun text v => valueText numeral depth v = .ok text) texts items := by
  induction items generalizing texts with
  | nil =>
    rw [itemTexts] at h
    cases h
    exact .nil
  | cons v items ih =>
    rw [itemTexts] at h
    obtain ⟨text, htext, h⟩ := Except.bind_eq_ok_iff.mp h
    obtain ⟨more, hmore, h⟩ := Except.bind_eq_ok_iff.mp h
    cases h
    exact .cons htext (ih hmore)

/-- The texts of entries are those of each, behind its key. -/
theorem forall₂_inlineTexts {entries : Table Value} {texts : List String}
    (h : inlineTexts numeral depth entries = .ok texts) :
    List.Forall₂ (fun text e => ∃ vtext, text = keyText e.1 ++ " = " ++ vtext ∧
      valueText numeral depth e.2 = .ok vtext) texts entries := by
  induction entries generalizing texts with
  | nil =>
    rw [inlineTexts] at h
    cases h
    exact .nil
  | cons e entries ih =>
    obtain ⟨k, v⟩ := e
    rw [inlineTexts] at h
    obtain ⟨text, htext, h⟩ := Except.bind_eq_ok_iff.mp h
    obtain ⟨more, hmore, h⟩ := Except.bind_eq_ok_iff.mp h
    cases h
    exact .cons ⟨text, rfl, htext⟩ (ih hmore)

/-- Nothing is written where no level is left. -/
theorem exists_depth {v : Value} {text : String} (h : valueText numeral depth v = .ok text) :
    ∃ n, depth = n + 1 := by
  cases depth with
  | zero =>
    rw [valueText] at h
    exact absurd h (by simp)
  | succ n => exact ⟨n, rfl⟩

/-- **Every value that was written in a line is read back**, if its numbers are. -/
theorem readsBack_valueText (v : Value) (hv : v.WellKeyed) (hspelled : Spelled numeral v)
    {text : String} (h : valueText numeral depth v = .ok text) : ReadsBack depth text v := by
  induction v using Data.induction generalizing depth text with
  | text s =>
    obtain ⟨depth, rfl⟩ := exists_depth h
    rw [valueText] at h
    cases h
    exact readsBack_text s
  | number x =>
    obtain ⟨depth, rfl⟩ := exists_depth h
    rw [valueText] at h
    cases h
    exact readsBack_number (hspelled x .here)
  | flag b =>
    obtain ⟨depth, rfl⟩ := exists_depth h
    rw [valueText] at h
    cases h
    exact readsBack_flag b
  | list items ih =>
    obtain ⟨depth, rfl⟩ := exists_depth h
    rw [valueText] at h
    obtain ⟨texts, htexts, h⟩ := Except.bind_eq_ok_iff.mp h
    cases h
    rw [Data.wellKeyed_list_iff] at hv
    refine readsBack_list (forall₂_imp_of_mem (forall₂_itemTexts htexts) ?_)
    exact fun _ v hmem htext => ih v hmem (hv v hmem) (hspelled.item hmem) htext
  | table entries ih =>
    obtain ⟨depth, rfl⟩ := exists_depth h
    rw [valueText] at h
    obtain ⟨texts, htexts, h⟩ := Except.bind_eq_ok_iff.mp h
    cases h
    rw [Data.wellKeyed_table_iff] at hv
    refine readsBack_table (forall₂_imp_of_mem (forall₂_inlineTexts htexts) ?_) hv.1
    rintro _ e hmem ⟨vtext, rfl, htext⟩
    exact ⟨vtext, rfl, ih e hmem (hv.2 e hmem) (hspelled.entry hmem) htext⟩
  | alien e => exact e.elim

end Toml

end Bestiary
