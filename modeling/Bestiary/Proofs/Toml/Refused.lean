import Bestiary.Proofs.Toml.RoundTrip

/-!
# Documents refused for a number

A number may be written as a numeral that the reader refuses, since it stands for an integer past
the safe ones. The first such number stops the reading of a document: what stands in front of it is
read, and then the fault is reported.

* `StopsLossy` says that reading has stopped so; `Refused` says it of the text of a value.
* `GoodUpTo` is a row with a bad element behind good ones. Reading a row of items, of entries, of
  lines, of sections or of tables of a series stops at the bad element.
* `parse_writeWith_lossy`: the document of a table with such a number is refused.
-/

namespace Bestiary.Toml

open Draft

/-! ## Stopping -/

/-- Reading has stopped at an integer past the safe ones. -/
def StopsLossy {α : Type} (result : Except Stop α) : Prop :=
  ∃ rest, result = .error ⟨.lossyInteger, rest⟩

theorem StopsLossy.map {α β : Type} {result : Except Stop α} (h : StopsLossy result) (f : α → β) :
    StopsLossy (result.map f) := by
  obtain ⟨rest, rfl⟩ := h
  exact ⟨rest, rfl⟩

theorem StopsLossy.bind {α β : Type} {result : Except Stop α} (h : StopsLossy result)
    (f : α → Except Stop β) : StopsLossy (result.bind f) := by
  obtain ⟨rest, rfl⟩ := h
  exact ⟨rest, rfl⟩

/-- An element of the second row is bad, with the one of the first row, and all in front of it are
good. -/
inductive GoodUpTo {α β : Type} (good bad : α → β → Prop) : List α → List β → Prop
  | bad {a : α} {b : β} {as : List α} {bs : List β} (h : bad a b) :
      GoodUpTo good bad (a :: as) (b :: bs)
  | good {a : α} {b : β} {as : List α} {bs : List β} (h : good a b)
      (hmore : GoodUpTo good bad as bs) : GoodUpTo good bad (a :: as) (b :: bs)

/-- Where each element is good or bad and one is bad, there is a first that is bad. -/
theorem goodUpTo_of_forall₂ {α β : Type} {R good bad : α → β → Prop} {p : β → Prop} {as : List α}
    {bs : List β} (h : List.Forall₂ R as bs) (hgood : ∀ a, ∀ b ∈ bs, R a b → ¬p b → good a b)
    (hbad : ∀ a, ∀ b ∈ bs, R a b → p b → bad a b) (hex : ∃ b ∈ bs, p b) :
    GoodUpTo good bad as bs := by
  induction h with
  | nil =>
    obtain ⟨b, hb, -⟩ := hex
    exact absurd hb List.not_mem_nil
  | @cons a b as bs hab _ ih =>
    by_cases hb : p b
    · exact .bad (hbad a b List.mem_cons_self hab hb)
    · refine .good (hgood a b List.mem_cons_self hab hb) (ih ?_ ?_ ?_)
      · exact fun a b hmem => hgood a b (List.mem_cons_of_mem _ hmem)
      · exact fun a b hmem => hbad a b (List.mem_cons_of_mem _ hmem)
      · obtain ⟨b', hmem, hb'⟩ := hex
        rcases List.mem_cons.mp hmem with rfl | hmem
        · exact absurd hb' hb
        · exact ⟨b', hmem, hb'⟩

/-! ## Values -/

/-- The text is refused wherever a value can stand and `depth` structures may be opened. -/
structure Refused (depth : Nat) (text : String) : Prop where
  solid : StartsSolid text.toList
  stops : ∀ {closing : Option Char} {rest : List Char} {fuel limit : Nat}, IsClosing closing →
    numeralEnds closing rest = true → text.toList.length < fuel → depth ≤ limit →
    StopsLossy (readValue fuel limit closing (text.toList ++ rest))

theorem Refused.mono {depth depth' : Nat} {text : String} (h : Refused depth text)
    (hle : depth ≤ depth') : Refused depth' text :=
  ⟨h.solid, fun hclosing hends hfuel hlimit => h.stops hclosing hends hfuel (hle.trans hlimit)⟩

variable {start rest cs : List Char} {fuel limit depth : Nat}

theorem refused_number {text : String} (h : SpellsLossy text.toList) : Refused depth text := by
  refine ⟨startsSolid_of_spells h, ?_⟩
  intro closing rest fuel limit hclosing hends hfuel _
  obtain ⟨fuel, rfl⟩ := exists_fuel hfuel
  exact ⟨_, readValue_of_spells h hclosing hends⟩

/-- Behind a text in a row there is what ends a numeral. -/
theorem exists_listedChars_cons (bracket : Char) (text : String) (texts : List String) :
    ∃ c tail, listedChars bracket (text :: texts) = ' ' :: (text.toList ++ c :: tail) ∧
      (c = ' ' ∨ c = ',') := by
  cases texts with
  | nil => exact ⟨' ', [bracket], rfl, .inl rfl⟩
  | cons text' texts => exact ⟨',', _, rfl, .inr rfl⟩

theorem numeralEnds_listed {c : Char} (hc : c = ' ' ∨ c = ',') (bracket : Char)
    (rest : List Char) : numeralEnds (some bracket) (c :: rest) = true := by
  rcases hc with rfl | rfl <;> exact numeralEnds_cons (by rfl) rest

/-- **A row of items stops at the first that is refused.** -/
theorem stopsLossy_listed (hlimit : depth ≤ limit) {texts : List String} {items : List Value}
    (h : GoodUpTo (ReadsBack depth) (fun text _ => Refused depth text) texts items)
    (hfuel : (listedChars ']' texts).length < fuel) (start rest : List Char) :
    StopsLossy (readArray fuel limit start (listedChars ']' texts ++ rest)) := by
  induction h generalizing fuel with
  | @bad text v texts items htext =>
    obtain ⟨c', after, hlisted, hc'⟩ := exists_listedChars_cons ']' text texts
    obtain ⟨c, tail, hcs, hc⟩ := htext.solid
    obtain ⟨fuel, rfl⟩ := exists_fuel hfuel
    rw [hlisted, List.length_cons, List.length_append] at hfuel
    have hlt : text.toList.length < fuel := by omega
    have hstops := htext.stops (.inr (.inl rfl)) (numeralEnds_listed hc' ']' (after ++ rest)) hlt
      hlimit
    rw [hlisted, List.cons_append, List.append_assoc, List.cons_append]
    rw [hcs, List.cons_append] at hstops ⊢
    rw [readArray_item hc]
    exact hstops.bind _
  | @good text v texts items htext hmore ih =>
    obtain ⟨c, tail, hcs, hc⟩ := htext.solid
    obtain ⟨fuel, rfl⟩ := exists_fuel hfuel
    cases texts with
    | nil => exact absurd hmore (by rintro ⟨⟩)
    | cons text' texts =>
      simp only [listedChars, List.length_cons, List.length_append] at hfuel
      have hlt : text.toList.length < fuel := by omega
      have hmore : (listedChars ']' (text' :: texts)).length < fuel := by omega
      obtain ⟨d, hd, -⟩ := htext.reads (.inr (.inl rfl))
        (numeralEnds_cons (c := ',') rfl (listedChars ']' (text' :: texts) ++ rest)) hlt hlimit
      simp only [listedChars, List.cons_append, List.append_assoc]
      rw [hcs, List.cons_append] at hd ⊢
      rw [readArray_more hc hd]
      exact (ih hmore).map _

/-- The text of an entry that is refused. -/
def EntryRefused (depth : Nat) (text : String) (e : String × Value) : Prop :=
  ∃ valueText, text = keyText e.1 ++ " = " ++ valueText ∧ Refused depth valueText

/-- **A row of entries stops at the first that is refused**, in a table that has none of the
keys. -/
theorem stopsLossy_listedEntries (hlimit : depth ≤ limit) {texts : List String}
    {entries : Table Value}
    (h : GoodUpTo (EntryReadsBack depth) (EntryRefused depth) texts entries)
    (hfuel : (listedChars '}' texts).length < fuel) {es : Table Draft} {done : Table Value}
    (hcovers : Covers es done) (hn : (Table.keys (entries ++ done)).Nodup)
    (start rest : List Char) :
    StopsLossy (readInline fuel limit start es (listedChars '}' texts ++ rest)) := by
  induction h generalizing fuel es done with
  | @bad text e texts entries htext =>
    obtain ⟨k, v⟩ := e
    obtain ⟨vtext, rfl, hrefused⟩ := htext
    obtain ⟨c₀, after, hlisted, hc₀⟩ :=
      exists_listedChars_cons '}' (keyText k ++ " = " ++ vtext) texts
    obtain ⟨c, tail, hcs, hc⟩ := startsSolid_keyText k
    obtain ⟨c', tail', hcs', hc'⟩ := hrefused.solid
    have hk : es.get? k = none := hcovers.get?_eq_none_of_nodup hn
    obtain ⟨fuel, rfl⟩ := exists_fuel hfuel
    rw [hlisted] at hfuel ⊢
    simp only [List.length_cons, List.length_append, String.toList_append] at hfuel
    have hlt : vtext.toList.length < fuel := by omega
    have hstops := hrefused.stops (.inr (.inr rfl)) (numeralEnds_listed hc₀ '}' (after ++ rest))
      hlt hlimit
    simp only [List.cons_append, List.append_assoc, String.toList_append]
    rw [hcs', List.cons_append] at hstops
    rw [hcs, hcs', List.cons_append, List.cons_append,
      readInline_entry hc hc' (by rw [hcs]; rfl) hk]
    exact hstops.bind _
  | @good text e texts entries htext hmore ih =>
    obtain ⟨k, v⟩ := e
    obtain ⟨vtext, rfl, hback⟩ := htext
    obtain ⟨c, tail, hcs, hc⟩ := startsSolid_keyText k
    obtain ⟨c', tail', hcs', hc'⟩ := hback.solid
    have hk : es.get? k = none := hcovers.get?_eq_none_of_nodup hn
    obtain ⟨fuel, rfl⟩ := exists_fuel hfuel
    cases texts with
    | nil => exact absurd hmore (by rintro ⟨⟩)
    | cons text' texts =>
      simp only [listedChars, List.length_cons, List.length_append, String.toList_append]
        at hfuel
      have hlt : vtext.toList.length < fuel := by omega
      have hmore : (listedChars '}' (text' :: texts)).length < fuel := by omega
      obtain ⟨d, hd, hreads⟩ := hback.reads (.inr (.inr rfl))
        (numeralEnds_cons (c := ',') rfl (listedChars '}' (text' :: texts) ++ rest)) hlt hlimit
      have hset : Covers (es.set k (.value d)) ((k, v) :: done) := hcovers.set hk hreads
      have hstops := ih hmore hset (nodup_keys_middle hn)
      simp only [listedChars, List.cons_append, List.append_assoc, String.toList_append]
      rw [hcs', List.cons_append] at hd
      rw [hcs, hcs', List.cons_append, List.cons_append,
        readInline_entry hc hc' (by rw [hcs]; rfl) hk, hd]
      exact hstops

/-- A list in a line. -/
theorem refused_list {texts : List String} {items : List Value}
    (h : GoodUpTo (ReadsBack depth) (fun text _ => Refused depth text) texts items) :
    Refused (depth + 1)
      (if texts.isEmpty then "[]" else "[ " ++ ", ".intercalate texts ++ " ]") := by
  cases texts with
  | nil => exact absurd h (by rintro ⟨⟩)
  | cons text texts =>
    have hchars := toList_listText text texts
    rw [List.isEmpty_cons, if_neg Bool.false_ne_true]
    refine ⟨⟨'[', _, hchars, rfl⟩, ?_⟩
    intro closing rest fuel limit _ _ hfuel hlimit
    rw [hchars, List.length_cons] at hfuel
    obtain ⟨fuel, rfl⟩ := exists_fuel hfuel
    obtain ⟨limit, rfl⟩ := exists_fuel hlimit
    rw [hchars, List.cons_append, readValue_list]
    exact (stopsLossy_listed (Nat.le_of_succ_le_succ hlimit) h
      (Nat.lt_of_succ_lt_succ hfuel) _ rest).map _

/-- A table in a line. -/
theorem refused_table {texts : List String} {entries : Table Value}
    (h : GoodUpTo (EntryReadsBack depth) (EntryRefused depth) texts entries)
    (hn : entries.keys.Nodup) :
    Refused (depth + 1)
      (if texts.isEmpty then "\x7b\x7d" else "\x7b " ++ ", ".intercalate texts ++ " \x7d") := by
  cases texts with
  | nil => exact absurd h (by rintro ⟨⟩)
  | cons text texts =>
    have hchars := toList_inlineText text texts
    rw [List.isEmpty_cons, if_neg Bool.false_ne_true]
    refine ⟨⟨'{', _, hchars, rfl⟩, ?_⟩
    intro closing rest fuel limit _ _ hfuel hlimit
    rw [hchars, List.length_cons] at hfuel
    obtain ⟨fuel, rfl⟩ := exists_fuel hfuel
    obtain ⟨limit, rfl⟩ := exists_fuel hlimit
    have hnone : (Table.keys (entries ++ [])).Nodup := by
      rw [List.append_nil]
      exact hn
    rw [hchars, List.cons_append, readValue_inline]
    exact (stopsLossy_listedEntries (Nat.le_of_succ_le_succ hlimit) h
      (Nat.lt_of_succ_lt_succ hfuel) covers_nil hnone _ rest).map _

/-! ## Values that are written -/

variable {numeral : Number → String}

/-- Every number is written as a numeral, which is read as the number or refused. -/
def WritesNumerals (numeral : Number → String) : Prop :=
  ∀ x, SpellsNumber (numeral x).toList x ∨ SpellsLossy (numeral x).toList

/-- Some number of the value is written as a numeral that is refused. -/
def HasLossy (numeral : Number → String) (v : Value) : Prop :=
  ∃ x, v.HasNumber x ∧ SpellsLossy (numeral x).toList

theorem WritesNumerals.spelled (h : WritesNumerals numeral) {v : Value} (hv : ¬HasLossy numeral v) :
    Spelled numeral v :=
  fun x hx => (h x).resolve_right fun hlossy => hv ⟨x, hx, hlossy⟩

namespace HasLossy

theorem of_number {x : Number} (h : HasLossy numeral (.number x)) :
    SpellsLossy (numeral x).toList := by
  obtain ⟨_, ⟨⟩, hlossy⟩ := h
  exact hlossy

theorem exists_item {items : List Value} (h : HasLossy numeral (.list items)) :
    ∃ v ∈ items, HasLossy numeral v := by
  obtain ⟨x, _ | ⟨hmem, hx⟩ | _, hlossy⟩ := h
  exact ⟨_, hmem, x, hx, hlossy⟩

theorem exists_entry {entries : Table Value} (h : HasLossy numeral (.table entries)) :
    ∃ e ∈ entries, HasLossy numeral e.2 := by
  obtain ⟨x, _ | _ | ⟨hmem, hx⟩, hlossy⟩ := h
  exact ⟨_, hmem, x, hx, hlossy⟩

end HasLossy

/-- Numbers written as `Number.text` writes them are such numerals. -/
theorem writesNumerals_text : WritesNumerals Number.text := fun x =>
  (spells_text x).elim (fun h => .inr h.2) fun h => .inl h.2

/-- **A value with such a number is refused** where it was written in a line. -/
theorem refused_valueText (hnumeral : WritesNumerals numeral) (v : Value) (hv : v.WellKeyed)
    (hlossy : HasLossy numeral v) {text : String} (h : valueText numeral depth v = .ok text) :
    Refused depth text := by
  induction v using Data.induction generalizing depth text with
  | number x =>
    obtain ⟨depth, rfl⟩ := exists_depth h
    rw [valueText] at h
    cases h
    exact refused_number hlossy.of_number
  | list items ih =>
    obtain ⟨depth, rfl⟩ := exists_depth h
    rw [valueText] at h
    obtain ⟨texts, htexts, h⟩ := Except.bind_eq_ok_iff.mp h
    cases h
    rw [Data.wellKeyed_list_iff] at hv
    refine refused_list (goodUpTo_of_forall₂ (forall₂_itemTexts htexts) ?_ ?_ hlossy.exists_item)
    · exact fun _ v hmem htext hv' =>
        readsBack_valueText v (hv v hmem) (hnumeral.spelled hv') htext
    · exact fun _ v hmem htext hv' => ih v hmem (hv v hmem) hv' htext
  | table entries ih =>
    obtain ⟨depth, rfl⟩ := exists_depth h
    rw [valueText] at h
    obtain ⟨texts, htexts, h⟩ := Except.bind_eq_ok_iff.mp h
    cases h
    rw [Data.wellKeyed_table_iff] at hv
    refine refused_table
      (goodUpTo_of_forall₂ (forall₂_inlineTexts htexts) ?_ ?_ hlossy.exists_entry) hv.1
    · rintro _ e hmem ⟨vtext, rfl, htext⟩ he
      exact ⟨vtext, rfl,
        readsBack_valueText e.2 (hv.2 e hmem) (hnumeral.spelled he) htext⟩
    · rintro _ e hmem ⟨vtext, rfl, htext⟩ he
      exact ⟨vtext, rfl, ih e hmem (hv.2 e hmem) he htext⟩
  | alien e => exact e.elim
  | _ =>
    obtain ⟨_, ⟨⟩, -⟩ := hlossy

/-! ## Declarations -/

/-- Reading `cs` after `p` stops at an integer past the safe ones. -/
def Fails (p : Progress) (cs : List Char) : Prop :=
  ∀ fuel, cs.length < fuel → StopsLossy (readDeclarations fuel p cs)

theorem Reaches.fails {p p' : Progress} {cs cs' : List Char} (h : Reaches p cs p' cs')
    (hfails : Fails p' cs') : Fails p cs := by
  intro fuel hfuel
  obtain ⟨fuel', hfuel', hread⟩ := h fuel hfuel
  rw [hread]
  exact hfails fuel' hfuel'

variable {path : List String} {C : Table Draft → Table Draft} {es : Table Draft}
  {done : Table Value} {k : String} {lines sections : List String} {entries : Table Value}

/-- The text of a line whose value is refused. -/
def LineRefused (line : String) (e : String × Value) : Prop :=
  ∃ text, line = keyText e.1 ++ " = " ++ text ++ "\n" ∧ Refused nestingLimit text

theorem fails_line (hC : Surrounds path C) (hk : es.get? k = none) {v : Value} {line : String}
    (hline : LineRefused line (k, v)) (rest : List Char) :
    Fails ⟨C es, path⟩ (line.toList ++ rest) := by
  obtain ⟨text, rfl, hrefused⟩ := hline
  intro fuel hfuel
  obtain ⟨_, hlt, hread⟩ := exists_readDeclaration_line hC hk hrefused.solid rest
  obtain ⟨stopped, hstopped⟩ := hrefused.stops (.inl rfl)
    (numeralEnds_cons (c := '\n') rfl rest) hlt (Nat.le_refl _)
  obtain ⟨c, cs, hcs, hc⟩ := exists_line_eq_cons k text rest
  obtain ⟨fuel, rfl⟩ := exists_fuel hfuel
  refine ⟨stopped, ?_⟩
  rw [hstopped, hcs] at hread
  rw [hcs, readDeclarations_succ hc, hread]
  rfl

/-- **Lines stop at the first that is refused.** -/
theorem fails_lines (hC : Surrounds path C) {ents : Table Value}
    (h : GoodUpTo LineReadsBack LineRefused lines ents) (hcovers : Covers es done)
    (hn : (Table.keys (ents ++ done)).Nodup) (rest : List Char) :
    Fails ⟨C es, path⟩ ((String.join lines).toList ++ rest) := by
  induction h generalizing es done with
  | @bad line e lines ents hline =>
    rw [String.join_cons, String.toList_append, List.append_assoc]
    exact fails_line hC (hcovers.get?_eq_none_of_nodup hn) hline _
  | @good line e lines ents hline _ ih =>
    obtain ⟨k, v⟩ := e
    have hk := hcovers.get?_eq_none_of_nodup hn
    obtain ⟨d, hd, hreads⟩ := reaches_line hC hk hline ((String.join lines).toList ++ rest)
    have hset : Covers (es.set k (.value d)) ((k, v) :: done) := hcovers.set hk hreads
    rw [String.join_cons, String.toList_append, List.append_assoc]
    exact hd.fails (ih hset (nodup_keys_middle hn))

/-! ## Sections -/

/-- The text is refused wherever a section of the entry can stand in the table at the path. -/
def SectionFails (path : List String) (text : String) (e : String × Value) : Prop :=
  ∀ {C : Table Draft → Table Draft} {es : Table Draft} (cur : List String) {rest : List Char},
    Surrounds path C → es.get? e.1 = none → AtLineEnd rest →
    Fails ⟨C es, cur⟩ (text.toList ++ rest)

/-- Behind a text in a row of sections a line ends. -/
theorem exists_intercalate_eq (text : String) (texts : List String) (hrest : AtLineEnd rest) :
    ∃ after, ("\n".intercalate (text :: texts)).toList ++ rest = text.toList ++ after ∧
      AtLineEnd after := by
  cases texts with
  | nil => exact ⟨rest, by rw [String.intercalate_singleton], hrest⟩
  | cons text' texts =>
    refine ⟨'\n' :: (("\n".intercalate (text' :: texts)).toList ++ rest), ?_, .inr ⟨_, rfl⟩⟩
    rw [String.intercalate_cons_cons]
    simp

/-- **Sections stop at the first that is refused.** -/
theorem fails_sections (hC : Surrounds path C) {texts : List String} {secs : Table Value}
    (h : GoodUpTo (SectionOf path) (SectionFails path) texts secs) (hcovers : Covers es done)
    (hn : (Table.keys (secs ++ done)).Nodup) (hrest : AtLineEnd rest) (cur : List String) :
    Fails ⟨C es, cur⟩ (("\n".intercalate texts).toList ++ rest) := by
  induction h generalizing es done cur with
  | @bad text e texts secs htext =>
    obtain ⟨after, hafter, hend⟩ := exists_intercalate_eq text texts hrest
    rw [hafter]
    exact htext cur hC (hcovers.get?_eq_none_of_nodup hn) hend
  | @good text e texts secs htext hmore ih =>
    obtain ⟨k, v⟩ := e
    have hk := hcovers.get?_eq_none_of_nodup hn
    cases texts with
    | nil => exact absurd hmore (by rintro ⟨⟩)
    | cons text' texts =>
      obtain ⟨d, cur₁, hd, hreads⟩ := htext cur hC hk
        (.inr ⟨("\n".intercalate (text' :: texts)).toList ++ rest, rfl⟩)
      have hset : Covers (es.set k d) ((k, v) :: done) := hcovers.set hk hreads
      have hfails := ih hset (nodup_keys_middle hn) cur₁
      rw [String.intercalate_cons_cons, String.toList_append, String.toList_append,
        List.append_assoc, List.append_assoc]
      exact (hd.trans (reaches_lineFeed _ _)).fails hfails

/-- The lines and the sections of a table at the path are refused. -/
def BodyFails (path : List String) (lines sections : List String) : Prop :=
  ∀ {C : Table Draft → Table Draft} {rest : List Char}, Surrounds path C → AtLineEnd rest →
    Fails ⟨C [], path⟩ ((tableText none lines sections).toList ++ rest)

theorem sectionFails_table {text : String} {wrap : Table Draft → Draft} {v : Value}
    (hleads : Leads path k text (tableText none lines sections) wrap)
    (h : BodyFails (path ++ [k]) lines sections) : SectionFails path text (k, v) := by
  intro C es cur rest hC hk hrest
  exact (hleads.reaches cur hC hk hrest).fails (h (hC.below hleads.wraps es k) hrest)

/-- The text of a table of a series that is refused. -/
def ElementRefused (path : List String) (text : String) (_ : Value) : Prop :=
  ∃ lines sections, text = s!"[[{pathText path}]]\n" ++ tableText none lines sections ∧
    BodyFails path lines sections

/-- **The tables of a series stop at the first that is refused.** -/
theorem fails_elements (hC : Surrounds path C) (hk : es.get? k = none) {texts : List String}
    {items : List Value}
    (h : GoodUpTo (ElementOf (path ++ [k])) (ElementRefused (path ++ [k])) texts items)
    (elements : List (Table Draft)) (hrest : AtLineEnd rest) (cur : List String) :
    Fails ⟨C (withSeries es k elements), cur⟩ (("\n".intercalate texts).toList ++ rest) := by
  induction h generalizing elements cur with
  | @bad text v texts items htext =>
    obtain ⟨lines, sections, rfl, hbody⟩ := htext
    obtain ⟨after, hafter, hend⟩ := exists_intercalate_eq
      (s!"[[{pathText (path ++ [k])}]]\n" ++ tableText none lines sections) texts hrest
    rw [hafter]
    exact (reaches_elementBody hC hk elements _ cur after).fails
      (hbody (hC.below (wraps_series elements) es k) hend)
  | @good text v texts items htext hmore ih =>
    obtain ⟨entries, lines, sections, rfl, rfl, hbody⟩ := htext
    cases texts with
    | nil => exact absurd hmore (by rintro ⟨⟩)
    | cons text' texts =>
      have hend : AtLineEnd ('\n' :: (("\n".intercalate (text' :: texts)).toList ++ rest)) :=
        .inr ⟨_, rfl⟩
      obtain ⟨es', cur₁, hes', -⟩ := reaches_element hC hk hbody elements hend cur
      have hfails := ih (elements ++ [es']) cur₁
      rw [String.intercalate_cons_cons, String.toList_append, String.toList_append,
        List.append_assoc, List.append_assoc]
      exact (hes'.trans (reaches_lineFeed _ _)).fails hfails

/-! ## Sections that are written -/

/-- Sections of the value under any key are refused. -/
def SectionRefused (numeral : Number → String) (v : Value) : Prop :=
  ∀ {path : List String} {k text : String} {depth : Nat}, depth ≤ nestingLimit →
    sectionText? numeral (pathText (path ++ [k])) depth v = .ok (some text) →
    SectionFails path text (k, v)

/-- The lines and sections of the table at any path are refused. -/
def BodyRefused (numeral : Number → String) (entries : Table Value) : Prop :=
  ∀ {path : List String} {lines sections : List String},
    WritesBody numeral path lines sections entries → BodyFails path lines sections

/-- The line of an entry, from its value. -/
theorem lineRefused_of_valueText (hnumeral : WritesNumerals numeral) (hdepth : depth ≤ nestingLimit)
    {e : String × Value} (hv : e.2.WellKeyed) (hlossy : HasLossy numeral e.2) {line : String}
    (h : ∃ text, line = keyText e.1 ++ " = " ++ text ++ "\n" ∧
      valueText numeral depth e.2 = .ok text) : LineRefused line e := by
  obtain ⟨text, hline, htext⟩ := h
  exact ⟨text, hline, (refused_valueText hnumeral e.2 hv hlossy htext).mono hdepth⟩

/-- The body of a table, from the sections in it. -/
theorem bodyRefused (hnumeral : WritesNumerals numeral) (hv : Data.WellKeyed (.table entries))
    (hlossy : HasLossy numeral (.table entries))
    (hentries : ∀ e ∈ entries, HasLossy numeral e.2 → SectionRefused numeral e.2) :
    BodyRefused numeral entries := by
  intro path lines sections ⟨⟨depth, hdepth, hlines⟩, ⟨depth', hdepth', hsections⟩⟩ C rest hC hrest
  rw [Data.wellKeyed_table_iff] at hv
  have hkeyed {q : String × Value → Bool} (e : String × Value) (he : e ∈ entries.filter q) :
      e.2.WellKeyed := hv.2 e (List.mem_filter.mp he).1
  have hwritten := forall₂_lineTexts hlines
  by_cases hline : ∃ e ∈ entries.filter fun e => !isSection e.2, HasLossy numeral e.2
  · have hupTo : GoodUpTo LineReadsBack LineRefused lines
        (entries.filter fun e => !isSection e.2) := by
      refine goodUpTo_of_forall₂ hwritten ?_ ?_ hline
      · exact fun _ e he h hfine =>
          lineReadsBack_of_valueText hdepth (hkeyed e he) (hnumeral.spelled hfine) h
      · exact fun _ e he h hbad => lineRefused_of_valueText hnumeral hdepth (hkeyed e he) hbad h
    rw [toList_tableText_none, List.append_assoc]
    exact fails_lines hC hupTo covers_nil (nodup_keys_plain hv.1) _
  · -- All lines are read, so the number is in a section behind them.
    have hfine (e : String × Value) (he : e ∈ entries.filter fun e => !isSection e.2) :
        ¬HasLossy numeral e.2 := fun hbad => hline ⟨e, he, hbad⟩
    have hall : List.Forall₂ LineReadsBack lines (entries.filter fun e => !isSection e.2) :=
      forall₂_imp_of_mem hwritten fun _ e he h =>
        lineReadsBack_of_valueText hdepth (hkeyed e he) (hnumeral.spelled (hfine e he)) h
    have hsection : ∃ e ∈ entries.filter fun e => isSection e.2, HasLossy numeral e.2 := by
      obtain ⟨e, he, hbad⟩ := hlossy.exists_entry
      cases hkind : isSection e.2 with
      | true => exact ⟨e, List.mem_filter.mpr ⟨he, hkind⟩, hbad⟩
      | false => exact absurd hbad (hfine e (List.mem_filter.mpr ⟨he, by rw [hkind]; rfl⟩))
    have hupTo : GoodUpTo (SectionOf path) (SectionFails path) sections
        (entries.filter fun e => isSection e.2) := by
      refine goodUpTo_of_forall₂ (forall₂_sectionTexts hsections) ?_ ?_ hsection
      · exact fun _ e he h hfine =>
          (readsBack_section e.2 (hkeyed e he) (hnumeral.spelled hfine)).1 hdepth' h
      · exact fun _ e he h hbad => hentries e (List.mem_filter.mp he).1 hbad hdepth' h
    obtain ⟨es, hes, hcovers⟩ := reaches_bodySections hC hv.1 hall sections rest
    exact hes.fails (fails_sections hC hupTo hcovers (nodup_keys_filter hv.1) hrest path)

/-- **Every section with such a number is refused.** -/
theorem refused_section (hnumeral : WritesNumerals numeral) (v : Value) (hv : v.WellKeyed)
    (hlossy : HasLossy numeral v) :
    SectionRefused numeral v ∧ ∀ entries, v = .table entries → BodyRefused numeral entries := by
  induction v using Data.induction with
  | table entries ih =>
    have hentries := Data.wellKeyed_table_iff.mp hv
    have hbody : BodyRefused numeral entries := bodyRefused hnumeral hv hlossy
      fun e he hbad => (ih e he (hentries.2 e he) hbad).1
    refine ⟨?_, ?_⟩
    · intro path k text depth hdepth h
      rcases sectionText?_cases hdepth h with ⟨_, lines, sections, ⟨⟩, rfl, hwrites⟩ | ⟨_, _, ⟨⟩, -⟩
      obtain ⟨wrap, hleads⟩ := exists_leads hwrites.exists_hasHeader
      exact sectionFails_table hleads (hbody hwrites)
    · rintro entries' ⟨⟩
      exact hbody
  | list items ih =>
    rw [Data.wellKeyed_list_iff] at hv
    refine ⟨?_, fun _ h => absurd h (by simp)⟩
    intro path k text depth hdepth h
    rcases sectionText?_cases hdepth h with ⟨_, _, _, ⟨⟩, -⟩ | ⟨_, texts, ⟨⟩, -, rfl, htexts⟩
    have hupTo : GoodUpTo (ElementOf (path ++ [k])) (ElementRefused (path ++ [k])) texts items := by
      refine goodUpTo_of_forall₂ htexts ?_ ?_ hlossy.exists_item
      · rintro _ v hmem ⟨entries, lines, sections, rfl, rfl, hwrites⟩ hfine
        have hbody : BodyReadsBack numeral entries :=
          (readsBack_section _ (hv _ hmem) (hnumeral.spelled hfine)).2 entries rfl
        exact ⟨entries, lines, sections, rfl, rfl, hbody hwrites⟩
      · rintro _ v hmem ⟨entries, lines, sections, rfl, rfl, hwrites⟩ hbad
        have hbody : BodyRefused numeral entries := (ih _ hmem (hv _ hmem) hbad).2 entries rfl
        exact ⟨lines, sections, rfl, hbody hwrites⟩
    intro C es cur rest hC hk hrest
    exact fails_elements hC hk hupTo [] hrest cur
  | alien e => exact e.elim
  | _ => exact ⟨fun _ h => absurd h (by simp [sectionText?]), fun _ h => absurd h (by simp)⟩

/-! ## Documents -/

/-- **A document with such a number is refused**, and for that. -/
theorem parse_writeWith_lossy (hnumeral : WritesNumerals numeral)
    (hkeyed : Data.WellKeyed (.table entries)) (hlossy : HasLossy numeral (.table entries))
    {text : String} (h : writeWith numeral entries = .ok text) (source : Option String) :
    ∃ line, parse text source = .error ⟨.malformed .lossyInteger line, source⟩ := by
  obtain ⟨lines, sections, rfl, hwrites⟩ := writesBody_of_writeWith h
  have hbody : BodyFails [] lines sections :=
    (refused_section hnumeral _ hkeyed hlossy).2 entries rfl hwrites
  obtain ⟨rest, hrest, fuel, hfuel, hread⟩ := exists_readDocument_eq hwrites
  obtain ⟨stopped, hstopped⟩ := hbody surrounds_nil (atLineEnd_of_eq hrest) fuel hfuel
  simp only [id] at hstopped
  rw [hstopped] at hread
  unfold parse
  rw [hread]
  exact ⟨_, rfl⟩

end Bestiary.Toml
