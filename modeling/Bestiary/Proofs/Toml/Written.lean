import Bestiary.Proofs.Toml.Reader

/-!
# How documents are written

The writing of a table taken apart: the lines of its plain entries, then the sections of the others,
each of which is a table with its body or a series table by table.

* `tableText_cases`: a body under its header, a header alone, or a body without lines.
* `WritesBody` and `WritesElement` say what was written where; `sectionText?_cases` takes a section
  apart.
* `hasHeader_section`: a section starts with a header of its entry or of something below it.
-/

namespace Bestiary.Toml

variable {path : List String} {lines sections : List String} {entries : Table Value}
  {numeral : Number → String}

/-! ## Texts of tables -/

theorem toList_tableText_none (lines sections : List String) :
    (tableText none lines sections).toList =
      (String.join lines).toList ++
        ((if String.join lines ≠ "" ∧ "\n".intercalate sections ≠ "" then ['\n'] else []) ++
          ("\n".intercalate sections).toList) := by
  unfold tableText
  simp only
  split
  · simp
  · simp

theorem toList_header (path : List String) :
    (s!"[{pathText path}]").toList = headerChars false path := by
  simp [headerChars, toList_pathText, toString]

/-- How the section of a table looks: its body under its header, its header alone, or no header and
no lines. -/
theorem tableText_cases (name : String) (lines sections : List String) :
    tableText (some name) lines sections = s!"[{name}]" ++ "\n" ++ tableText none lines sections ∨
      tableText (some name) lines sections = s!"[{name}]" ∧ tableText none lines sections = "" ∨
      tableText (some name) lines sections = tableText none lines sections ∧
        String.join lines = "" ∧ "\n".intercalate sections ≠ "" := by
  unfold tableText
  simp only
  by_cases hbody : String.join lines = ""
  · by_cases hsubs : "\n".intercalate sections = ""
    · exact .inr (.inl (by simp [hbody, hsubs]))
    · exact .inr (.inr (by simp [hbody, hsubs]))
  · refine .inl ?_
    have hheader : s!"[{name}]\n{String.join lines}" ≠ "" := by
      intro h
      have hlist := congrArg String.toList h
      simp [toString] at hlist
    simp only [ne_eq, hbody, hheader, not_false_eq_true, true_and, if_true]
    split <;> simp [toString, String.append_assoc]

theorem toList_elementText (path : List String) (text : String) :
    (s!"[[{pathText path}]]\n" ++ text).toList = headerChars true path ++ '\n' :: text.toList := by
  simp [headerChars, toList_pathText, toString]

/-! ## Lines and sections -/

/-- The lines of a table are those of its plain entries. -/
theorem forall₂_lineTexts {depth : Nat} (h : lineTexts numeral depth entries = .ok lines) :
    List.Forall₂ (fun line e => ∃ text, line = keyText e.1 ++ " = " ++ text ++ "\n" ∧
      valueText numeral depth e.2 = .ok text) lines (entries.filter fun e => !isSection e.2) := by
  unfold lineTexts at h
  rw [Except.mapM_eq_ok_iff] at h
  refine h.imp fun line e hline => ?_
  obtain ⟨text, htext, hline⟩ := Except.bind_eq_ok_iff.mp hline
  cases hline
  exact ⟨text, rfl, htext⟩

theorem sectionText?_of_not_isSection {v : Value} (h : isSection v = false) (name : String)
    (depth : Nat) : sectionText? numeral name depth v = .ok none := by
  cases v with
  | table entries => exact absurd h (by simp [isSection, Data.isTable, Data.table?])
  | list items =>
    have hseries : isSeries (.list items) = false := (Bool.or_eq_false_iff.mp h).2
    rw [sectionText?, hseries]
    rfl
  | alien e => exact e.elim
  | _ => rw [sectionText?] <;> simp

theorem isSome_of_sectionText? {v : Value} (h : isSection v = true) {name : String} {depth : Nat}
    {text : Option String} (htext : sectionText? numeral name depth v = .ok text) :
    text.isSome = true := by
  cases v with
  | table entries =>
    rw [sectionText?] at htext
    split at htext
    · exact absurd htext (by simp)
    · obtain ⟨lines, -, htext⟩ := Except.bind_eq_ok_iff.mp htext
      obtain ⟨sections, -, htext⟩ := Except.bind_eq_ok_iff.mp htext
      cases htext
      rfl
  | list items =>
    have hseries : isSeries (.list items) = true := by
      simpa [isSection, Data.isTable, Data.table?] using h
    rw [sectionText?, hseries, if_neg (by decide)] at htext
    split at htext
    · exact absurd htext (by simp)
    · obtain ⟨texts, -, htext⟩ := Except.bind_eq_ok_iff.mp htext
      cases htext
      rfl
  | alien e => exact e.elim
  | _ => exact absurd h (by simp [isSection, isSeries, Data.isTable, Data.table?])

/-- The sections of a table are those of its other entries, each under its path. -/
theorem forall₂_sectionTexts {depth : Nat} {entries : Table Value} {sections : List String}
    (h : sectionTexts numeral (pathText path) depth entries = .ok sections) :
    List.Forall₂ (fun text e => sectionText? numeral (pathText (path ++ [e.1])) depth e.2 =
      .ok (some text)) sections (entries.filter fun e => isSection e.2) := by
  induction entries generalizing sections with
  | nil =>
    rw [sectionTexts] at h
    cases h
    exact .nil
  | cons e entries ih =>
    obtain ⟨k, v⟩ := e
    rw [sectionTexts, ← pathText_append_singleton] at h
    obtain ⟨text, htext, h⟩ := Except.bind_eq_ok_iff.mp h
    obtain ⟨more, hmore, h⟩ := Except.bind_eq_ok_iff.mp h
    cases h
    cases hsection : isSection v with
    | false =>
      rw [sectionText?_of_not_isSection hsection] at htext
      cases htext
      rw [List.filter_cons_of_neg (by simp [hsection])]
      exact ih hmore
    | true =>
      obtain ⟨text, rfl⟩ := Option.isSome_iff_exists.mp (isSome_of_sectionText? hsection htext)
      rw [List.filter_cons_of_pos (by exact hsection)]
      exact .cons htext (ih hmore)

/-- The lines and the sections of a table at a path, as they are written. -/
structure WritesBody (numeral : Number → String) (path : List String)
    (lines sections : List String) (entries : Table Value) : Prop where
  lines : ∃ depth ≤ nestingLimit, lineTexts numeral depth entries = .ok lines
  sections : ∃ depth ≤ nestingLimit,
    sectionTexts numeral (pathText path) depth entries = .ok sections

/-- A table of a series, as it is written under its header. -/
def WritesElement (numeral : Number → String) (path : List String) (text : String) (v : Value) :
    Prop :=
  ∃ entries lines sections, v = .table entries ∧
    text = s!"[[{pathText path}]]\n" ++ tableText none lines sections ∧
    WritesBody numeral path lines sections entries

/-- A series is written table by table. -/
theorem forall₂_elementTexts {items : List Value} (htables : items.all Data.isTable = true)
    {depth : Nat} (hdepth : depth ≤ nestingLimit) {texts : List String}
    (h : elementTexts numeral (pathText path) depth items = .ok texts) :
    List.Forall₂ (WritesElement numeral path) texts items := by
  induction items generalizing texts with
  | nil =>
    rw [elementTexts] at h
    cases h
    exact .nil
  | cons v items ih =>
    rw [List.all_cons, Bool.and_eq_true] at htables
    cases v with
    | table entries =>
      rw [elementTexts] at h
      obtain ⟨lines, hlines, h⟩ := Except.bind_eq_ok_iff.mp h
      obtain ⟨sections, hsections, h⟩ := Except.bind_eq_ok_iff.mp h
      obtain ⟨more, hmore, h⟩ := Except.bind_eq_ok_iff.mp h
      cases h
      exact .cons ⟨entries, lines, sections, rfl, rfl, ⟨depth, hdepth, hlines⟩,
        depth - 1, (Nat.sub_le _ _).trans hdepth, hsections⟩ (ih htables.2 hmore)
    | _ => exact absurd htables.1 (by simp [Data.isTable, Data.table?])

/-- How the section of an entry is written: a table with its body, or a series table by table. -/
theorem sectionText?_cases {v : Value} {depth : Nat} (hdepth : depth ≤ nestingLimit)
    {text : String}
    (h : sectionText? numeral (pathText path) depth v = .ok (some text)) :
    (∃ entries lines sections, v = .table entries ∧
      text = tableText (some (pathText path)) lines sections ∧
      WritesBody numeral path lines sections entries) ∨
    ∃ items texts, v = .list items ∧ items ≠ [] ∧ text = "\n".intercalate texts ∧
      List.Forall₂ (WritesElement numeral path) texts items := by
  cases v with
  | table entries =>
    rw [sectionText?] at h
    split at h
    · exact absurd h (by simp)
    · obtain ⟨lines, hlines, h⟩ := Except.bind_eq_ok_iff.mp h
      obtain ⟨sections, hsections, h⟩ := Except.bind_eq_ok_iff.mp h
      cases h
      exact .inl ⟨entries, lines, sections, rfl, rfl, ⟨depth, hdepth, hlines⟩,
        depth - 1, (Nat.sub_le _ _).trans hdepth, hsections⟩
  | list items =>
    rw [sectionText?] at h
    split at h
    · exact absurd h (by simp [pure, Except.pure])
    · rename_i hseries
      split at h
      · exact absurd h (by simp)
      · obtain ⟨texts, htexts, h⟩ := Except.bind_eq_ok_iff.mp h
        cases h
        have hparts : items ≠ [] ∧ items.all Data.isTable = true := by
          simpa [isSeries] using hseries
        exact .inr ⟨items, texts, rfl, hparts.1, rfl,
          forall₂_elementTexts hparts.2 hdepth htexts⟩
  | alien e => exact e.elim
  | _ => exact absurd h (by simp [sectionText?])

/-! ## Headers -/

/-- The text starts with a header of the path or of something below it. -/
def HasHeader (path : List String) (text : String) : Prop :=
  ∃ element q more, text.toList = headerChars element (path ++ q) ++ more

theorem exists_toList_intercalate (text : String) (texts : List String) :
    ∃ more, ("\n".intercalate (text :: texts)).toList = text.toList ++ more := by
  cases texts with
  | nil => exact ⟨[], by rw [String.intercalate_singleton, List.append_nil]⟩
  | cons text' texts =>
    rw [String.intercalate_cons_cons, String.append_assoc, String.toList_append]
    exact ⟨_, rfl⟩

/-- Sections without lines in front of them start with a header. -/
theorem exists_header_of_sections (hheaders : ∀ text ∈ sections, ∃ k, HasHeader (path ++ [k]) text)
    (hlines : String.join lines = "") (hsubs : "\n".intercalate sections ≠ "") :
    ∃ k, HasHeader (path ++ [k]) (tableText none lines sections) := by
  cases sections with
  | nil => exact absurd String.intercalate_nil hsubs
  | cons text texts =>
    obtain ⟨k, element, q, more, hchars⟩ := hheaders text List.mem_cons_self
    obtain ⟨after, hafter⟩ := exists_toList_intercalate text texts
    refine ⟨k, element, q, more ++ after, ?_⟩
    simp [toList_tableText_none, hlines, hafter, hchars]

/-- Sections of the value under any key start with a header. -/
def SectionHasHeader (numeral : Number → String) (v : Value) : Prop :=
  ∀ {path : List String} {depth : Nat}, depth ≤ nestingLimit → ∀ {text : String},
    sectionText? numeral (pathText path) depth v = .ok (some text) → HasHeader path text

theorem WritesBody.hasHeader (h : WritesBody numeral path lines sections entries)
    (hentries : ∀ e ∈ entries, SectionHasHeader numeral e.2) :
    ∀ text ∈ sections, ∃ k, HasHeader (path ++ [k]) text := by
  obtain ⟨-, depth, hdepth, hsections⟩ := h
  have hall : List.Forall₂ (fun text _ => (∃ k, HasHeader (path ++ [k]) text) ∧ True) sections
      (entries.filter fun e => isSection e.2) :=
    forall₂_imp_of_mem (forall₂_sectionTexts hsections) fun text e he htext =>
      ⟨⟨e.1, hentries e (List.mem_filter.mp he).1 hdepth htext⟩, trivial⟩
  exact ((List.forall₂_and_left _ _).mp hall).1

/-- **A section starts with a header of its entry or of something below it.** -/
theorem hasHeader_section (v : Value) : SectionHasHeader numeral v := by
  induction v using Data.induction with
  | table entries ih =>
    intro path depth hdepth text h
    rcases sectionText?_cases hdepth h with
      ⟨_, lines, sections, ⟨⟩, rfl, hwrites⟩ | ⟨_, _, ⟨⟩, -⟩
    rcases tableText_cases (pathText path) lines sections with
      htext | ⟨htext, -⟩ | ⟨htext, hlines, hsubs⟩
    · refine ⟨false, [], '\n' :: (tableText none lines sections).toList, ?_⟩
      rw [htext, String.toList_append, String.toList_append, toList_header]
      simp
    · exact ⟨false, [], [], by rw [htext, toList_header]; simp⟩
    · obtain ⟨k, element, q, more, hchars⟩ :=
        exists_header_of_sections (hwrites.hasHeader ih) hlines hsubs
      exact ⟨element, k :: q, more, by rw [htext, hchars]; simp⟩
  | list items _ =>
    intro path depth hdepth text h
    rcases sectionText?_cases hdepth h with ⟨_, _, _, ⟨⟩, -⟩ | ⟨_, texts, ⟨⟩, hne, rfl, htexts⟩
    cases htexts with
    | nil => exact absurd rfl hne
    | @cons text v texts items htext _ =>
      obtain ⟨entries, lines, sections, rfl, rfl, -⟩ := htext
      obtain ⟨more, hmore⟩ := exists_toList_intercalate
        (s!"[[{pathText path}]]\n" ++ tableText none lines sections) texts
      refine ⟨true, [], '\n' :: (tableText none lines sections).toList ++ more, ?_⟩
      rw [hmore, toList_elementText]
      simp
  | alien e => exact e.elim
  | _ =>
    intro _ _ _ _ h
    exact absurd h (by simp [sectionText?])

/-- So do the sections of every table. -/
theorem WritesBody.exists_hasHeader (h : WritesBody numeral path lines sections entries) :
    ∀ text ∈ sections, ∃ k, HasHeader (path ++ [k]) text :=
  h.hasHeader fun e _ => hasHeader_section e.2

end Bestiary.Toml
