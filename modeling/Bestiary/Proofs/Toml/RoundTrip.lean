import Bestiary.Proofs.Toml.Keyed
import Bestiary.Proofs.Toml.Section

/-!
# Documents read back

A table that was written as a document is parsed to the same table.

* `parse_writeWith` is the round trip, for every well-keyed table that can be written, however its
  numbers are; `parse_write` is that with `numberText`.
* `parse_write_of_parse`: so nothing is lost where a parsed document is written and parsed again.
-/

namespace Bestiary.Toml

open Loose (Reads)

variable {numeral : Number → String} {lines sections : List String} {entries : Table Value}
  {text : String}

/-! ## From the first character to the body -/

/-- A body is empty or starts with a key or a header. -/
theorem body_cases (h : WritesBody numeral [] lines sections entries) :
    (tableText none lines sections).toList = [] ∨
      ∃ c cs, (tableText none lines sections).toList = c :: cs ∧ c ≠ '\uFEFF' := by
  by_cases hlines : String.join lines = ""
  · by_cases hsubs : "\n".intercalate sections = ""
    · exact .inl (by simp [toList_tableText_none, hlines, hsubs])
    · obtain ⟨k, element, q, more, hchars⟩ :=
        exists_header_of_sections h.exists_hasHeader hlines hsubs
      obtain ⟨cs, hcs⟩ := headerChars_eq_cons element ([] ++ [k] ++ q)
      rw [hcs, List.cons_append] at hchars
      exact .inr ⟨'[', _, hchars, by decide⟩
  · obtain ⟨⟨_, -, hwritten⟩, -⟩ := h
    have hall := forall₂_lineTexts hwritten
    generalize (entries.filter fun e => !isSection e.2) = ents at hall
    cases hall with
    | nil => exact absurd String.join_nil hlines
    | @cons line e lines ents hline _ =>
      obtain ⟨text, rfl, -⟩ := hline
      obtain ⟨c, cs, hcs, hc⟩ := keyText_eq_cons e.1
      refine .inr ⟨c, ?_⟩
      simp only [toList_tableText_none, String.join_cons, String.toList_append, hcs,
        List.cons_append]
      refine ⟨_, rfl, ?_⟩
      rcases hc with hc | rfl
      · exact ne_of_isBare hc rfl
      · decide

/-- What stands behind the body of a document: a line feed, if it has none at its end. -/
theorem exists_toList_withLineEnd (text : String) :
    ∃ rest, (rest = [] ∨ rest = ['\n']) ∧ (withLineEnd text).toList = text.toList ++ rest := by
  unfold withLineEnd
  split
  · exact ⟨[], .inl rfl, (List.append_nil _).symm⟩
  · exact ⟨['\n'], .inr rfl, String.toList_append⟩

/-- A document that does not start with a byte order mark is read from its first character on. -/
theorem readDocument_eq {cs : List Char} (h : cs.head? ≠ some '\uFEFF') :
    readDocument cs = (readDeclarations (cs.length + 1) {} cs).map fun p =>
      Draft.finishEntries p.entries := by
  unfold readDocument
  split
  · exact absurd rfl h
  · rfl

/-- A document that was written is read from the first character of its body on. -/
theorem exists_readDocument_eq (h : WritesBody numeral [] lines sections entries) :
    ∃ rest, (rest = [] ∨ rest = ['\n']) ∧ ∃ fuel,
      ((tableText none lines sections).toList ++ rest).length < fuel ∧
      readDocument (withLineEnd (tableText none lines sections)).toList =
        (readDeclarations fuel ⟨[], []⟩ ((tableText none lines sections).toList ++ rest)).map
          fun p => Draft.finishEntries p.entries := by
  obtain ⟨rest, hrest, hchars⟩ := exists_toList_withLineEnd (tableText none lines sections)
  refine ⟨rest, hrest, _, Nat.lt_succ_self _, ?_⟩
  rw [hchars]
  refine readDocument_eq ?_
  rcases body_cases h with hnil | ⟨c, tail, hbody, hc⟩
  · rw [hnil, List.nil_append]
    rcases hrest with rfl | rfl <;> simp
  · rw [hbody]
    simpa using hc

theorem atLineEnd_of_eq (h : rest = [] ∨ rest = ['\n']) : AtLineEnd rest := by
  rcases h with rfl | rfl
  · exact .inl rfl
  · exact .inr ⟨[], rfl⟩

/-! ## The whole document -/

/-- **A body is read as its table.** -/
theorem readDocument_body (hwrites : WritesBody numeral [] lines sections entries)
    (h : BodyOf [] lines sections entries) :
    ∃ ds, readDocument (withLineEnd (tableText none lines sections)).toList = .ok ds ∧
      Reads (.table ds) (.table entries) := by
  obtain ⟨rest, hrest, fuel, hfuel, hread⟩ := exists_readDocument_eq hwrites
  obtain ⟨es, cur, hreach, hcovers⟩ := reaches_body surrounds_nil h (atLineEnd_of_eq hrest)
  have hover : Reaches ⟨es, cur⟩ rest ⟨es, cur⟩ [] := by
    rcases hrest with rfl | rfl
    · exact .refl _ _
    · exact reaches_lineFeed _ _
  obtain ⟨_, -, hend⟩ := hreach.trans hover fuel hfuel
  refine ⟨Draft.finishEntries es, ?_, hcovers.reads h.nodup⟩
  simp only [id] at hend
  rw [hread, hend, readDeclarations_nil]
  rfl

/-- What a document that was written consists of. -/
theorem writesBody_of_writeWith (h : writeWith numeral entries = .ok text) :
    ∃ lines sections, text = withLineEnd (tableText none lines sections) ∧
      WritesBody numeral [] lines sections entries := by
  unfold writeWith at h
  obtain ⟨lines, hlines, h⟩ := Except.bind_eq_ok_iff.mp h
  obtain ⟨sections, hsections, h⟩ := Except.bind_eq_ok_iff.mp h
  cases h
  exact ⟨lines, sections, rfl, ⟨depthLimit, Nat.le_refl _, hlines⟩,
    depthLimit - 1, Nat.sub_le _ _, hsections⟩

/-- **The round trip**: a well-keyed table that was written as a document is parsed to the same
table, if its numbers were written as numerals that are read as them. -/
theorem parse_writeWith (hkeyed : Data.WellKeyed (.table entries))
    (hspelled : Spelled numeral (.table entries)) (h : writeWith numeral entries = .ok text)
    (source : Option String) :
    ∃ parsed, parse text source = .ok parsed ∧ Data.WellKeyed (.table parsed) ∧
      Value.same (.table parsed) (.table entries) = true := by
  obtain ⟨lines, sections, rfl, hwrites⟩ := writesBody_of_writeWith h
  have hbody : BodyOf [] lines sections entries :=
    (readsBack_section _ hkeyed hspelled).2 entries rfl hwrites
  obtain ⟨ds, hds, w, hw, hwkeyed, hsame⟩ := readDocument_body hwrites hbody
  unfold parse
  rw [hds]
  cases w with
  | table parsed =>
    have hentries : ds = Data.mapEntries Empty.elim parsed := Data.table.inj hw
    refine ⟨parsed, ?_, hwkeyed, hsame⟩
    simp only [hentries, Loose.narrowEntries_loosen]
  | _ => exact absurd hsame (by simp [Value.same])

/-- So it is with the numbers of `numberText`. -/
theorem parse_write (hkeyed : Data.WellKeyed (.table entries)) (h : write entries = .ok text)
    (source : Option String) :
    ∃ parsed, parse text source = .ok parsed ∧ Data.WellKeyed (.table parsed) ∧
      Value.same (.table parsed) (.table entries) = true :=
  parse_writeWith hkeyed (fun x _ => spellsNumber_numberText x) h source

/-- **Writing what was parsed loses nothing.** -/
theorem parse_write_of_parse {text' : String} {source : Option String}
    (h : parse text source = .ok entries) (hwrite : write entries = .ok text') :
    ∃ parsed, parse text' source = .ok parsed ∧
      Value.same (.table parsed) (.table entries) = true := by
  obtain ⟨parsed, hparsed, -, hsame⟩ := parse_write (wellKeyed_of_parse h) hwrite source
  exact ⟨parsed, hparsed, hsame⟩

end Bestiary.Toml
