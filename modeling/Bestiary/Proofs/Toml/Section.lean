import Bestiary.Proofs.Toml.Written

/-!
# Sections read back

A section stands for an entry of the table around it: whatever surrounds that table, reading the
section adds the entry and changes nothing else. A section without a header of its own is opened by
the first header inside it.

* `Leads` says that a text leads to the body of a table; `exists_leads`: the section of a table
  does.
* `SectionReads` says that a text stands for an entry.
* `reaches_body`: the lines and the sections of a table.
* `sectionReads_table` and `sectionReads_series`: the two kinds of sections, from their parts.
* `readsBack_section`: every section, by induction on the entry.
-/

namespace Bestiary.Toml

open Draft
open Loose (Reads)

variable {path : List String} {C : Table Draft → Table Draft} {es : Table Draft}
  {done : Table Value} {cur : List String} {rest : List Char} {k : String}

/-! ## Lines -/

theorem ReadsBack.mono {depth depth' : Nat} {text : String} {v : Value}
    (h : ReadsBack depth text v) (hle : depth ≤ depth') : ReadsBack depth' text v :=
  ⟨h.solid, fun hclosing hends hfuel hlimit => h.reads hclosing hends hfuel (hle.trans hlimit)⟩

/-- **Lines add their entries to the current table.** -/
theorem reaches_lines (hC : Surrounds path C) {lines : List String} {ents : Table Value}
    (h : List.Forall₂ LineReadsBack lines ents) (hcovers : Covers es done)
    (hn : (Table.keys (ents ++ done)).Nodup) (rest : List Char) :
    ∃ es', Reaches ⟨C es, path⟩ ((String.join lines).toList ++ rest) ⟨C es', path⟩ rest ∧
      Covers es' (ents ++ done) := by
  induction h generalizing es done with
  | nil => exact ⟨es, .refl _ _, hcovers⟩
  | @cons line e lines ents hline _ ih =>
    obtain ⟨k, v⟩ := e
    have hk := hcovers.get?_eq_none_of_nodup hn
    obtain ⟨d, hd, hreads⟩ := reaches_line hC hk hline ((String.join lines).toList ++ rest)
    have hset : Covers (es.set k (.value d)) ((k, v) :: done) := hcovers.set hk hreads
    obtain ⟨es', hes', hcovers'⟩ := ih hset (nodup_keys_middle hn)
    refine ⟨es', ?_, hcovers'.perm List.perm_middle⟩
    rw [String.join_cons, String.toList_append, List.append_assoc]
    exact hd.trans hes'

/-! ## Sections in a row -/

/-- The text stands for an entry of the table at the path. -/
def SectionReads (path : List String) (k : String) (text : String) (v : Value) : Prop :=
  ∀ {C : Table Draft → Table Draft} {es : Table Draft} (cur : List String) {rest : List Char},
    Surrounds path C → es.get? k = none → AtLineEnd rest →
    ∃ d cur', Reaches ⟨C es, cur⟩ (text.toList ++ rest) ⟨C (es.set k d), cur'⟩ rest ∧
      Reads d.finish v

/-- The text stands for the entry. -/
def SectionOf (path : List String) (text : String) (e : String × Value) : Prop :=
  SectionReads path e.1 text e.2

/-- **Sections add their entries to the table around them.** -/
theorem reaches_sections (hC : Surrounds path C) {texts : List String} {secs : Table Value}
    (h : List.Forall₂ (SectionOf path) texts secs) (hcovers : Covers es done)
    (hn : (Table.keys (secs ++ done)).Nodup) (hrest : AtLineEnd rest) (cur : List String) :
    ∃ es' cur', Reaches ⟨C es, cur⟩ (("\n".intercalate texts).toList ++ rest) ⟨C es', cur'⟩ rest ∧
      Covers es' (secs ++ done) := by
  induction h generalizing es done cur with
  | nil =>
    rw [String.intercalate_nil]
    exact ⟨es, cur, .refl _ _, hcovers⟩
  | @cons text e texts secs htext htexts ih =>
    obtain ⟨k, v⟩ := e
    have hk := hcovers.get?_eq_none_of_nodup hn
    cases texts with
    | nil =>
      cases htexts
      obtain ⟨d, cur', hd, hreads⟩ := htext cur hC hk hrest
      rw [String.intercalate_singleton]
      exact ⟨es.set k d, cur', hd, hcovers.set hk hreads⟩
    | cons text' texts =>
      obtain ⟨d, cur₁, hd, hreads⟩ := htext cur hC hk
        (.inr ⟨("\n".intercalate (text' :: texts)).toList ++ rest, rfl⟩)
      have hset : Covers (es.set k d) ((k, v) :: done) := hcovers.set hk hreads
      obtain ⟨es', cur', hes', hcovers'⟩ := ih hset (nodup_keys_middle hn) cur₁
      refine ⟨es', cur', ?_, hcovers'.perm List.perm_middle⟩
      have hchars : ("\n".intercalate (text :: text' :: texts)).toList ++ rest =
          text.toList ++ '\n' :: (("\n".intercalate (text' :: texts)).toList ++ rest) := by
        rw [String.intercalate_cons_cons]
        simp
      rw [hchars]
      exact hd.trans ((reaches_lineFeed _ _).trans hes')

/-! ## The body of a table -/

/-- The lines and the sections of a table. -/
structure BodyOf (path : List String) (lines sections : List String) (entries : Table Value) :
    Prop where
  nodup : entries.keys.Nodup
  lines : List.Forall₂ LineReadsBack lines (entries.filter fun e => !isSection e.2)
  sections : List.Forall₂ (SectionOf path) sections (entries.filter fun e => isSection e.2)

theorem filter_perm (entries : Table Value) :
    ((entries.filter fun e => isSection e.2) ++ (entries.filter fun e => !isSection e.2)).Perm
      entries :=
  List.filter_append_perm (fun e => isSection e.2) entries

variable {lines sections : List String} {entries : Table Value}

theorem nodup_keys_filter (hn : entries.keys.Nodup) :
    (Table.keys ((entries.filter fun e => isSection e.2) ++
      (entries.filter fun e => !isSection e.2))).Nodup :=
  ((filter_perm entries).map Prod.fst).nodup_iff.mpr hn

theorem nodup_keys_plain (hn : entries.keys.Nodup) :
    (Table.keys ((entries.filter fun e => !isSection e.2) ++ [])).Nodup := by
  have hall := nodup_keys_filter hn
  rw [Table.keys_append] at hall
  rw [List.append_nil]
  exact hall.of_append_right

/-- Behind the lines of a body there are its sections. -/
theorem reaches_bodySections (hC : Surrounds path C) (hn : entries.keys.Nodup)
    (h : List.Forall₂ LineReadsBack lines (entries.filter fun e => !isSection e.2))
    (sections : List String) (rest : List Char) :
    ∃ es', Reaches ⟨C [], path⟩ ((tableText none lines sections).toList ++ rest) ⟨C es', path⟩
        (("\n".intercalate sections).toList ++ rest) ∧
      Covers es' (entries.filter fun e => !isSection e.2) := by
  obtain ⟨es', hes', hcovers⟩ := reaches_lines hC h covers_nil (nodup_keys_plain hn)
    ((if String.join lines ≠ "" ∧ "\n".intercalate sections ≠ "" then ['\n'] else []) ++
      (("\n".intercalate sections).toList ++ rest))
  rw [List.append_nil] at hcovers
  refine ⟨es', ?_, hcovers⟩
  rw [toList_tableText_none, List.append_assoc, List.append_assoc]
  refine hes'.trans ?_
  split
  · exact reaches_lineFeed _ _
  · exact .refl _ _

/-- **The body of a table is read into the table.** -/
theorem reaches_body (hC : Surrounds path C) (h : BodyOf path lines sections entries)
    (hrest : AtLineEnd rest) :
    ∃ es' cur', Reaches ⟨C [], path⟩ ((tableText none lines sections).toList ++ rest)
      ⟨C es', cur'⟩ rest ∧ Covers es' entries := by
  obtain ⟨es₁, hes₁, hcovers₁⟩ := reaches_bodySections hC h.nodup h.lines sections rest
  obtain ⟨es₂, cur₂, hes₂, hcovers₂⟩ :=
    reaches_sections hC h.sections hcovers₁ (nodup_keys_filter h.nodup) hrest path
  exact ⟨es₂, cur₂, hes₁.trans hes₂, hcovers₂.perm (filter_perm entries)⟩

/-! ## A table under its key -/

theorem openHeader?_table (hC : Surrounds path C) (hk : es.get? k = none) :
    openHeader? false (C es) (path ++ [k]) = some (C (es.set k (.opened true []))) := by
  rw [hC.opens false es [k] (List.cons_ne_nil _ _)]
  simp [openHeader?, openTable?, hk]

/-- Where the table at the path has no such entry, the text leads to the body of a table that is
the entry from then on. `wrap` is what has been made of that table. -/
structure Leads (path : List String) (k : String) (text body : String)
    (wrap : Table Draft → Draft) : Prop where
  wraps : Wraps wrap
  finish : ∀ es, (wrap es).finish = .table (finishEntries es)
  reaches : ∀ {C : Table Draft → Table Draft} {es : Table Draft} (cur : List String)
    {rest : List Char}, Surrounds path C → es.get? k = none → AtLineEnd rest →
    Reaches ⟨C es, cur⟩ (text.toList ++ rest) ⟨C (es.set k (wrap [])), path ++ [k]⟩
      (body.toList ++ rest)

/-- A header leads there, with what stands between it and the body. -/
theorem leads_of_header {text body : String} {after : List Char}
    (hchars : text.toList = headerChars false (path ++ [k]) ++ after)
    (hafter : ∀ (p : Progress) (rest : List Char), AtLineEnd rest →
      AtLineEnd (after ++ rest) ∧ Reaches p (after ++ rest) p (body.toList ++ rest)) :
    Leads path k text body (.opened true) := by
  have hpath : path ++ [k] ≠ [] := by simp
  refine ⟨wraps_opened true, fun _ => rfl, fun {C es} cur {rest} hC hk hrest => ?_⟩
  obtain ⟨hend, hlead⟩ := hafter ⟨C (es.set k (.opened true [])), path ++ [k]⟩ rest hrest
  rw [hchars, List.append_assoc]
  have hheader := reaches_header (p := ⟨C es, cur⟩) false hpath (openHeader?_table hC hk) hend
  exact hheader.trans hlead

/-- No header, where the body starts with one of its own: that makes the absent table that it goes
through. -/
theorem leads_of_hasHeader {body k' : String} (h : HasHeader (path ++ [k] ++ [k']) body) :
    ∃ element, Leads path k body body (fresh element) := by
  obtain ⟨element, q, more, hchars⟩ := h
  refine ⟨element, wraps_fresh element, fun es => ?_, fun {C es} cur {rest} hC hk _ => ?_⟩
  · cases element <;> rfl
  · have hlist : path ++ [k] ++ [k'] ++ q = path ++ k :: k' :: q := by simp
    rw [hchars, List.append_assoc]
    refine reaches_of_openHeader?_eq (by simp) ?_ (more ++ rest)
    rw [hlist]
    simp only
    rw [hC.opens element _ _ (List.cons_ne_nil _ _), hC.opens element _ _ (List.cons_ne_nil _ _),
      openHeader?_of_fresh element hk (List.cons_ne_nil _ _)]

/-- **The section of a table leads to its body.** -/
theorem exists_leads (hheaders : ∀ text ∈ sections, ∃ k', HasHeader (path ++ [k] ++ [k']) text) :
    ∃ wrap, Leads path k (tableText (some (pathText (path ++ [k]))) lines sections)
      (tableText none lines sections) wrap := by
  rcases tableText_cases (pathText (path ++ [k])) lines sections with
    htext | ⟨htext, hnone⟩ | ⟨htext, hlines, hsubs⟩
  · have hchars : (tableText (some (pathText (path ++ [k]))) lines sections).toList =
        headerChars false (path ++ [k]) ++ '\n' :: (tableText none lines sections).toList := by
      rw [htext, String.toList_append, String.toList_append, toList_header]
      simp
    exact ⟨_, leads_of_header hchars fun p rest _ => ⟨.inr ⟨_, rfl⟩, reaches_lineFeed p _⟩⟩
  · have hchars : (tableText (some (pathText (path ++ [k]))) lines sections).toList =
        headerChars false (path ++ [k]) ++ [] := by
      rw [htext, toList_header, List.append_nil]
    refine ⟨_, leads_of_header hchars fun p rest hrest => ⟨hrest, ?_⟩⟩
    rw [hnone]
    exact .refl p rest
  · obtain ⟨k', hheader⟩ := exists_header_of_sections hheaders hlines hsubs
    obtain ⟨element, hleads⟩ := leads_of_hasHeader hheader
    exact ⟨fresh element, by rw [htext]; exact hleads⟩

/-- **A text that leads to the body of a table is a section of it.** -/
theorem sectionReads_table {text : String} {wrap : Table Draft → Draft}
    (hleads : Leads path k text (tableText none lines sections) wrap)
    (h : BodyOf (path ++ [k]) lines sections entries) :
    SectionReads path k text (.table entries) := by
  intro C es cur rest hC hk hrest
  obtain ⟨es', cur', hes', hcovers⟩ := reaches_body (hC.below hleads.wraps es k) h hrest
  refine ⟨wrap es', cur', (hleads.reaches cur hC hk hrest).trans hes', ?_⟩
  rw [hleads.finish]
  exact hcovers.reads h.nodup

/-! ## A series under its key -/

/-- The text of one table of a series, under its header. -/
def ElementOf (path : List String) (text : String) (v : Value) : Prop :=
  ∃ entries lines sections, v = .table entries ∧
    text = s!"[[{pathText path}]]\n" ++ tableText none lines sections ∧
    BodyOf path lines sections entries

/-- A table with the elements of a series that were read so far. -/
def withSeries (es : Table Draft) (k : String) (elements : List (Table Draft)) : Table Draft :=
  if elements = [] then es else es.set k (.series elements)

theorem openHeader?_withSeries (hk : es.get? k = none) (elements : List (Table Draft)) :
    openHeader? true (withSeries es k elements) [k] =
      some (es.set k (.series (elements ++ [[]]))) := by
  unfold withSeries
  split
  · rename_i hnone
    simp [openHeader?, openElement?, hk, hnone]
  · simp [openHeader?, openElement?]

theorem withSeries_append (es : Table Draft) (k : String) (elements : List (Table Draft))
    (es' : Table Draft) :
    withSeries es k (elements ++ [es']) = es.set k (.series (elements ++ [es'])) := by
  unfold withSeries
  rw [if_neg (by simp)]

/-- The header of one more table of a series leads to its body. -/
theorem reaches_elementBody (hC : Surrounds path C) (hk : es.get? k = none)
    (elements : List (Table Draft)) (body : String) (cur : List String) (rest : List Char) :
    Reaches ⟨C (withSeries es k elements), cur⟩
      ((s!"[[{pathText (path ++ [k])}]]\n" ++ body).toList ++ rest)
      ⟨C (es.set k (.series (elements ++ [[]]))), path ++ [k]⟩ (body.toList ++ rest) := by
  have hpath : path ++ [k] ≠ [] := by simp
  have hopen : openHeader? true (C (withSeries es k elements)) (path ++ [k]) =
      some (C (es.set k (.series (elements ++ [[]])))) := by
    rw [hC.opens true _ _ (List.cons_ne_nil _ _), openHeader?_withSeries hk]
    rfl
  have hheader := reaches_header (p := ⟨C (withSeries es k elements), cur⟩) true hpath hopen
    (.inr ⟨body.toList ++ rest, rfl⟩)
  rw [toList_elementText, List.append_assoc, List.cons_append]
  exact hheader.trans (reaches_lineFeed _ _)

/-- One more table of a series. -/
theorem reaches_element (hC : Surrounds path C) (hk : es.get? k = none)
    {lines sections : List String} {entries : Table Value}
    (hbody : BodyOf (path ++ [k]) lines sections entries)
    (elements : List (Table Draft)) (hrest : AtLineEnd rest) (cur : List String) :
    ∃ es' cur', Reaches ⟨C (withSeries es k elements), cur⟩
        ((s!"[[{pathText (path ++ [k])}]]\n" ++ tableText none lines sections).toList ++ rest)
        ⟨C (withSeries es k (elements ++ [es'])), cur'⟩ rest ∧
      Reads (.table (finishEntries es')) (.table entries) := by
  have hbelow := hC.below (wraps_series elements) es k
  obtain ⟨es', cur', hes', hcovers⟩ := reaches_body hbelow hbody hrest
  refine ⟨es', cur', ?_, hcovers.reads hbody.nodup⟩
  rw [withSeries_append]
  exact (reaches_elementBody hC hk elements _ cur rest).trans hes'

/-- **The tables of a series are read one by one.** -/
theorem reaches_elements (hC : Surrounds path C) (hk : es.get? k = none) {texts : List String}
    {items : List Value} (h : List.Forall₂ (ElementOf (path ++ [k])) texts items)
    (elements : List (Table Draft)) (hrest : AtLineEnd rest) (cur : List String) :
    ∃ more cur', Reaches ⟨C (withSeries es k elements), cur⟩
        (("\n".intercalate texts).toList ++ rest)
        ⟨C (withSeries es k (elements ++ more)), cur'⟩ rest ∧
      List.Forall₂ (fun es v => Reads (.table (finishEntries es)) v) more items := by
  induction h generalizing elements cur with
  | nil =>
    refine ⟨[], cur, ?_, .nil⟩
    rw [List.append_nil, String.intercalate_nil]
    exact .refl _ _
  | @cons text v texts items htext htexts ih =>
    obtain ⟨entries, lines, sections, rfl, rfl, hbody⟩ := htext
    cases texts with
    | nil =>
      cases htexts
      obtain ⟨es', cur', hes', hreads⟩ := reaches_element hC hk hbody elements hrest cur
      rw [String.intercalate_singleton]
      exact ⟨[es'], cur', hes', .cons hreads .nil⟩
    | cons text' texts =>
      have hend : AtLineEnd ('\n' :: (("\n".intercalate (text' :: texts)).toList ++ rest)) :=
        .inr ⟨_, rfl⟩
      obtain ⟨es', cur₁, hes', hreads⟩ := reaches_element hC hk hbody elements hend cur
      obtain ⟨more, cur', hmore, hall⟩ := ih (elements ++ [es']) cur₁
      refine ⟨es' :: more, cur', ?_, .cons hreads hall⟩
      rw [List.append_assoc, List.singleton_append] at hmore
      rw [String.intercalate_cons_cons, String.toList_append, String.toList_append,
        List.append_assoc, List.append_assoc]
      exact hes'.trans ((reaches_lineFeed _ _).trans hmore)

theorem reads_series {elements : List (Table Draft)} {items : List Value}
    (h : List.Forall₂ (fun es v => Reads (.table (finishEntries es)) v) elements items) :
    Reads (Draft.finish (.series elements)) (.list items) := by
  rw [finish]
  refine Loose.reads_list ?_
  induction h with
  | nil => exact .nil
  | cons hd _ ih => exact .cons hd ih

/-- **The section of a series** under its key. -/
theorem sectionReads_series {texts : List String} {items : List Value} (hne : items ≠ [])
    (h : List.Forall₂ (ElementOf (path ++ [k])) texts items) :
    SectionReads path k ("\n".intercalate texts) (.list items) := by
  intro C es cur rest hC hk hrest
  obtain ⟨elements, cur', hreach, hall⟩ := reaches_elements hC hk h [] hrest cur
  have helements : elements ≠ [] := by
    rintro rfl
    cases hall
    exact hne rfl
  rw [List.nil_append] at hreach
  unfold withSeries at hreach
  rw [if_pos rfl, if_neg helements] at hreach
  exact ⟨.series elements, cur', hreach, reads_series hall⟩

/-! ## Every section -/

variable {numeral : Number → String}

/-- Sections of the value under any key read back. -/
def SectionReadsBack (numeral : Number → String) (v : Value) : Prop :=
  ∀ {path : List String} {k text : String} {depth : Nat}, depth ≤ nestingLimit →
    sectionText? numeral (pathText (path ++ [k])) depth v = .ok (some text) →
    SectionReads path k text v

/-- The lines and sections of the table at any path read back. -/
def BodyReadsBack (numeral : Number → String) (entries : Table Value) : Prop :=
  ∀ {path : List String} {lines sections : List String},
    WritesBody numeral path lines sections entries → BodyOf path lines sections entries

/-- The line of an entry, from its value. -/
theorem lineReadsBack_of_valueText {depth : Nat} (hdepth : depth ≤ nestingLimit)
    {e : String × Value} (hv : e.2.WellKeyed) (hspelled : Spelled numeral e.2) {line : String}
    (h : ∃ text, line = keyText e.1 ++ " = " ++ text ++ "\n" ∧
      valueText numeral depth e.2 = .ok text) : LineReadsBack line e := by
  obtain ⟨text, hline, htext⟩ := h
  exact ⟨text, hline, (readsBack_valueText e.2 hv hspelled htext).mono hdepth⟩

/-- The body of a table, from the sections in it. -/
theorem bodyReadsBack (hv : Data.WellKeyed (.table entries))
    (hspelled : Spelled numeral (.table entries))
    (hentries : ∀ e ∈ entries, SectionReadsBack numeral e.2) : BodyReadsBack numeral entries := by
  intro path lines sections ⟨⟨depth, hdepth, hlines⟩, ⟨depth', hdepth', hsections⟩⟩
  rw [Data.wellKeyed_table_iff] at hv
  refine ⟨hv.1, forall₂_imp_of_mem (forall₂_lineTexts hlines) ?_,
    forall₂_imp_of_mem (forall₂_sectionTexts hsections) ?_⟩
  · intro line e he hline
    have hmem := (List.mem_filter.mp he).1
    exact lineReadsBack_of_valueText hdepth (hv.2 e hmem) (hspelled.entry hmem) hline
  · exact fun text e he htext => hentries e (List.mem_filter.mp he).1 hdepth' htext

/-- **Every section that was written is read back**, if the numbers in it are. -/
theorem readsBack_section (v : Value) (hv : v.WellKeyed) (hspelled : Spelled numeral v) :
    SectionReadsBack numeral v ∧ ∀ entries, v = .table entries → BodyReadsBack numeral entries := by
  induction v using Data.induction with
  | table entries ih =>
    have hentries := Data.wellKeyed_table_iff.mp hv
    have hbody : BodyReadsBack numeral entries := bodyReadsBack hv hspelled
      fun e he => (ih e he (hentries.2 e he) (hspelled.entry he)).1
    refine ⟨?_, ?_⟩
    · intro path k text depth hdepth h
      rcases sectionText?_cases hdepth h with ⟨_, lines, sections, ⟨⟩, rfl, hwrites⟩ | ⟨_, _, ⟨⟩, -⟩
      obtain ⟨wrap, hleads⟩ := exists_leads hwrites.exists_hasHeader
      exact sectionReads_table hleads (hbody hwrites)
    · rintro entries' ⟨⟩
      exact hbody
  | list items ih =>
    rw [Data.wellKeyed_list_iff] at hv
    refine ⟨?_, fun _ h => absurd h (by simp)⟩
    intro path k text depth hdepth h
    rcases sectionText?_cases hdepth h with ⟨_, _, _, ⟨⟩, -⟩ | ⟨_, texts, ⟨⟩, hne, rfl, htexts⟩
    refine sectionReads_series hne (forall₂_imp_of_mem htexts ?_)
    rintro _ v hmem ⟨entries, lines, sections, rfl, rfl, hwrites⟩
    have hbody : BodyReadsBack numeral entries :=
      (ih _ hmem (hv _ hmem) (hspelled.item hmem)).2 entries rfl
    exact ⟨entries, lines, sections, rfl, rfl, hbody hwrites⟩
  | alien e => exact e.elim
  | _ => exact ⟨fun _ h => absurd h (by simp [sectionText?]), fun _ h => absurd h (by simp)⟩

end Bestiary.Toml
