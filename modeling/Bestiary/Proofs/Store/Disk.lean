import Bestiary.Proofs.Data.Table
import Bestiary.Proofs.Text.Split
import Bestiary.Store.Disk

/-!
# What is seen on a disk

A place on a disk is empty, or a folder, or a file with a content. A file that is written or taken
away is seen at its own place only, and no folder comes or goes with it, so that every path leads to
the place to which it led before.

* `Entry.seen` is what is seen at a place; `Entry.seen_put` and `Entry.seen_remove` say what of it a
  file changes.
* `Disk.SameBut` relates disks that differ in files at some places only, `Disk.DiffersOnlyAt` those
  that differ where some paths lead to.
* `Disk.exists_place_of_look`: beside a file, a path with a longer name leads to a longer name.
-/

namespace Bestiary

namespace Entry

/-- The content of a file; none for a folder. -/
def content? : Entry → Option (List UInt8)
  | .file content => some content
  | .folder _ => none

/-- What is seen at a place below an entry: nothing, a folder, or a file with its content. -/
def seen (e : Entry) (place : Place) : Option (Option (List UInt8)) := (e.at? place).map content?

@[simp] theorem seen_nil (e : Entry) : e.seen [] = some e.content? := by
  cases e <;> rfl

@[simp] theorem seen_folder_cons (entries : List (String × Entry)) (name : String) (place : Place) :
    (folder entries).seen (name :: place) = (Table.get? entries name).bind (·.seen place) := by
  rw [seen, at?, Option.map_bind]
  rfl

/-- What is further down is seen from where one stands. -/
theorem seen_append (e : Entry) (place below : Place) :
    e.seen (place ++ below) = (e.at? place).bind (·.seen below) := by
  induction place generalizing e with
  | nil => cases e <;> rfl
  | cons name place ih =>
    cases e with
    | file content => rfl
    | folder entries =>
      rw [List.cons_append, seen_folder_cons, at?, Option.bind_assoc]
      exact Option.bind_congr fun e _ => ih e

theorem exists_of_seen_folder {e : Entry} {place : Place} (h : e.seen place = some none) :
    ∃ entries, e.at? place = some (.folder entries) := by
  obtain ⟨e', he', hcontent⟩ := Option.map_eq_some_iff.mp h
  cases e' with
  | file content => cases hcontent
  | folder entries => exact ⟨entries, he'⟩

/-- Whatever stands below a place stands in a folder. -/
theorem seen_of_below {e : Entry} {place below : Place} {name : String} {x : Option (List UInt8)}
    (h : e.seen (place ++ name :: below) = some x) : e.seen place = some none := by
  rw [seen_append] at h
  obtain ⟨e', he', hx⟩ := Option.bind_eq_some_iff.mp h
  rw [seen, he']
  cases e' with
  | file content => cases hx
  | folder entries => rfl

/-- What is seen is not below a place without a folder. -/
theorem not_prefix_of_seen {e : Entry} {place other : Place} {x : Option (List UInt8)}
    (h : e.seen place = some x) (hother : e.seen other ≠ some none) (hne : other ≠ place) :
    ¬other <+: place := by
  rintro ⟨below, rfl⟩
  cases below with
  | nil => exact hne (List.append_nil other).symm
  | cons name below => exact hother (seen_of_below h)

/-- Below what is no folder, nothing is seen. -/
theorem seen_cons_of_ne {o : Option Entry} (h : o.map content? ≠ some none) (name : String)
    (place : Place) : o.bind (·.seen (name :: place)) = none := by
  cases o with
  | none => rfl
  | some e =>
    cases e with
    | file content => rfl
    | folder entries => exact absurd rfl h

/-- What is seen after a change at one place, if the change is made where the folders on the way
lead to, and neither brings anything below the place nor takes a folder away. -/
theorem seen_change {change : Place → Entry → Entry} {name : String} {o : Option Entry}
    (hnew : ∀ next below, o.bind (·.seen (next :: below)) = none)
    (hlast : ∀ entries, ∃ entries', change [name] (.folder entries) = .folder entries' ∧
      ∀ other, Table.get? entries' other = if name = other then o else Table.get? entries other)
    (hdown : ∀ part folder entries e, Table.get? entries part = some e →
      change (part :: (folder ++ [name])) (.folder entries) =
        .folder (Table.set entries part (change (folder ++ [name]) e)))
    {d : Entry} {folder : Place} (hfolder : d.seen folder = some none)
    (hfree : d.seen (folder ++ [name]) ≠ some none) (place : Place) :
    (change (folder ++ [name]) d).seen place =
      if place = folder ++ [name] then o.map content? else d.seen place := by
  induction folder generalizing d place with
  | nil =>
    cases d with
    | file content => cases hfolder
    | folder entries =>
      obtain ⟨entries', hchange, hget⟩ := hlast entries
      rw [List.nil_append, hchange]
      cases place with
      | nil => simp [content?]
      | cons other below =>
        simp only [seen_folder_cons, hget, List.cons.injEq]
        by_cases hother : name = other
        · subst hother
          cases below with
          | nil => cases o <;> simp
          | cons next below =>
            have hold : (Table.get? entries name).map content? ≠ some none := by
              simpa [Option.map_eq_bind, Function.comp_def] using hfree
            simp [hnew, seen_cons_of_ne hold]
        · simp [hother, Ne.symm hother]
  | cons part folder ih =>
    cases d with
    | file content => cases hfolder
    | folder entries =>
      rw [seen_folder_cons] at hfolder
      obtain ⟨e, hget, hfolder⟩ := Option.bind_eq_some_iff.mp hfolder
      rw [List.cons_append, seen_folder_cons, hget] at hfree
      rw [List.cons_append, hdown part folder entries e hget]
      cases place with
      | nil => simp [content?]
      | cons other below =>
        simp only [seen_folder_cons, Table.get?_set, List.cons.injEq]
        by_cases hother : part = other
        · subst hother
          simp [hget, ih hfolder hfree]
        · simp [hother, Ne.symm hother]

variable {d : Entry} {folder : Place} {name : String}

/-- The same without a look at what is there: what is not below a place is seen as before. -/
theorem seen_change_of_not_prefix {change : Place → Entry → Entry}
    (hfile : ∀ name place content, change (name :: place) (.file content) = .file content)
    (hlast : ∀ name entries, ∃ entries', change [name] (.folder entries) = .folder entries' ∧
      ∀ other, name ≠ other → Table.get? entries' other = Table.get? entries other)
    (hdown : ∀ name next place entries, change (name :: next :: place) (.folder entries) =
      match Table.get? entries name with
      | some e => .folder (Table.set entries name (change (next :: place) e))
      | none => .folder entries)
    {changed place : Place} (h : ¬changed <+: place) (d : Entry) :
    (change changed d).seen place = d.seen place := by
  induction changed generalizing d place with
  | nil => exact absurd (List.nil_prefix) h
  | cons name changed ih =>
    cases d with
    | file content => rw [hfile]
    | folder entries =>
      cases changed with
      | nil =>
        obtain ⟨entries', hchange, hget⟩ := hlast name entries
        rw [hchange]
        cases place with
        | nil => rfl
        | cons other below =>
          have hother : name ≠ other := by
            rintro rfl
            exact h ⟨below, rfl⟩
          rw [seen_folder_cons, seen_folder_cons, hget other hother]
      | cons next changed =>
        rw [hdown]
        cases hget : Table.get? entries name with
        | none => rfl
        | some e =>
          cases place with
          | nil => rfl
          | cons other below =>
            simp only [seen_folder_cons, Table.get?_set]
            by_cases hother : name = other
            · subst hother
              rw [List.cons_prefix_cons, not_and] at h
              simp [hget, ih (h rfl)]
            · simp [hother]

theorem seen_put_of_not_prefix {changed place : Place} (h : ¬changed <+: place) (new d : Entry) :
    (put new changed d).seen place = d.seen place := by
  refine seen_change_of_not_prefix (fun _ _ _ => rfl) (fun name entries => ?_)
    (fun name next place entries => ?_) h d
  · exact ⟨_, rfl, fun other hother => by rw [Table.get?_set, if_neg hother]⟩
  · cases hget : Table.get? entries name <;> simp [put, hget]

theorem seen_remove_of_not_prefix {changed place : Place} (h : ¬changed <+: place) (d : Entry) :
    (remove changed d).seen place = d.seen place := by
  refine seen_change_of_not_prefix (fun _ _ _ => rfl) (fun name entries => ?_)
    (fun name next place entries => ?_) h d
  · exact ⟨_, rfl, fun other hother => by rw [Table.get?_erase, if_neg hother]⟩
  · cases hget : Table.get? entries name <;> simp [remove, hget]

/-- Where a file is put, no folder is seen, whether or not it could be put there. -/
theorem seen_put_file_ne (content : List UInt8) (place : Place) (d : Entry) :
    (put (.file content) place d).seen place ≠ some none := by
  induction place generalizing d with
  | nil => simp [put, content?]
  | cons name place ih =>
    cases d with
    | file content => simp [put, seen, at?]
    | folder entries =>
      cases place with
      | nil => simp [put, Table.get?_set, content?]
      | cons next place =>
        cases hget : Table.get? entries name with
        | none => simp [put, hget]
        | some e => simpa [put, hget, Table.get?_set] using ih e

/-- **A file that is written** is seen at its place, and nothing else is seen differently. -/
theorem seen_put (hfolder : d.seen folder = some none)
    (hfree : d.seen (folder ++ [name]) ≠ some none) (content : List UInt8) (place : Place) :
    (put (.file content) (folder ++ [name]) d).seen place =
      if place = folder ++ [name] then some (some content) else d.seen place := by
  refine seen_change (o := some (.file content)) (fun _ _ => rfl) (fun entries => ?_)
    (fun part folder entries e hget => ?_) hfolder hfree place
  · exact ⟨_, rfl, fun other => Table.get?_set ..⟩
  · cases folder <;> simp [put, hget]

/-- A folder that is made is seen at its place, and nothing else is seen differently. -/
theorem seen_put_folder (hfolder : d.seen folder = some none)
    (hfree : d.seen (folder ++ [name]) ≠ some none) (place : Place) :
    (put (.folder []) (folder ++ [name]) d).seen place =
      if place = folder ++ [name] then some none else d.seen place := by
  refine seen_change (o := some (.folder [])) (fun _ _ => rfl) (fun entries => ?_)
    (fun part folder entries e hget => ?_) hfolder hfree place
  · exact ⟨_, rfl, fun other => Table.get?_set ..⟩
  · cases folder <;> simp [put, hget]

/-- **A file that is taken away** is not seen any more, and nothing else is seen differently. -/
theorem seen_remove (hfolder : d.seen folder = some none)
    (hfree : d.seen (folder ++ [name]) ≠ some none) (place : Place) :
    (remove (folder ++ [name]) d).seen place =
      if place = folder ++ [name] then none else d.seen place := by
  refine seen_change (o := none) (fun _ _ => rfl) (fun entries => ?_)
    (fun part folder entries e hget => ?_) hfolder hfree place
  · exact ⟨_, rfl, fun other => Table.get?_erase ..⟩
  · cases folder <;> simp [remove, hget]

end Entry

namespace Disk

variable {d d' d'' : Disk} {place : Place} {path : String}

theorem hasFolder_iff : hasFolder d place = true ↔ Entry.seen d place = some none := by
  unfold hasFolder Entry.seen
  cases Entry.at? d place with
  | none => simp
  | some e => cases e <;> simp [Entry.isFolder, Entry.content?]

/-- What a path leads to, as it is seen. -/
def look (d : Disk) (path : String) : Option (Option (List UInt8)) :=
  (place? d path).bind (Entry.seen d)

theorem look_eq_map_find? (d : Disk) (path : String) :
    look d path = (find? d path).map Entry.content? := by
  rw [find?, Option.map_bind]
  rfl

/-- What is read is what is seen. -/
theorem read_eq (d : Disk) (path : String) :
    read d path = match look d path with
      | some (some content) => .ok content
      | some none => .error (.folder "read")
      | none => .error (.missing s!"open '{path}'") := by
  rw [look_eq_map_find?, read]
  cases find? d path with
  | none => rfl
  | some e => cases e <;> rfl

theorem read_eq_ok_iff {content : List UInt8} :
    read d path = .ok content ↔ look d path = some (some content) := by
  rw [read_eq]
  split <;> simp_all

theorem contains_iff : contains d path = true ↔ ∃ x, look d path = some x := by
  rw [look_eq_map_find?, contains]
  cases find? d path <;> simp

/-! ## Disks that differ in files -/

/-- The disks have the same folders, and the same files but at some places. -/
structure SameBut (places : List Place) (d d' : Disk) : Prop where
  folders : ∀ place, Entry.seen d' place = some none ↔ Entry.seen d place = some none
  elsewhere : ∀ place ∉ places, Entry.seen d' place = Entry.seen d place

namespace SameBut

variable {places : List Place}

theorem trans (h : SameBut places d d') (h' : SameBut places d' d'') : SameBut places d d'' :=
  ⟨fun place => (h'.folders place).trans (h.folders place),
    fun place hplace => (h'.elsewhere place hplace).trans (h.elsewhere place hplace)⟩

theorem hasFolder_eq (h : SameBut places d d') (place : Place) :
    hasFolder d' place = hasFolder d place := by
  rw [Bool.eq_iff_iff, hasFolder_iff, hasFolder_iff, h.folders]

/-- Paths lead where they led before. -/
theorem place?_eq (h : SameBut places d d') (path : String) : place? d' path = place? d path := by
  have hfollow : ∀ parts here, follow d' here parts = follow d here parts := by
    intro parts
    induction parts with
    | nil => exact fun _ => rfl
    | cons part parts ih =>
      intro here
      simp only [follow, h.hasFolder_eq, ih]
  unfold place?
  rw [hfollow]

end SameBut

/-- A change that is seen at one place, where there was no folder and comes none. -/
theorem sameBut_of_seen {places : List Place} {changed : Place} {x : Option (Option (List UInt8))}
    (hseen : ∀ place, Entry.seen d' place = if place = changed then x else Entry.seen d place)
    (hx : x ≠ some none) (hfree : Entry.seen d changed ≠ some none) (hmem : changed ∈ places) :
    SameBut places d d' := by
  refine ⟨fun place => ?_, fun place hplace => ?_⟩
  · rw [hseen]
    split
    · rename_i h
      subst h
      exact iff_of_false hx hfree
    · exact Iff.rfl
  · rw [hseen, if_neg (by rintro rfl; exact hplace hmem)]

/-- The disks differ only where one of the paths leads to, and all paths lead where they did. -/
structure DiffersOnlyAt (paths : List String) (d d' : Disk) : Prop where
  places : ∀ path, place? d' path = place? d path
  elsewhere : ∀ place, (∀ path ∈ paths, place? d path ≠ some place) →
    Entry.seen d' place = Entry.seen d place

theorem DiffersOnlyAt.refl (paths : List String) (d : Disk) : DiffersOnlyAt paths d d :=
  ⟨fun _ => rfl, fun _ _ => rfl⟩

theorem SameBut.differsOnlyAt {places : List Place} {paths : List String}
    (h : SameBut places d d')
    (hpaths : ∀ place ∈ places, ∃ path ∈ paths, place? d path = some place) :
    DiffersOnlyAt paths d d' := by
  refine ⟨h.place?_eq, fun place hplace => h.elsewhere place fun hmem => ?_⟩
  obtain ⟨path, hpath, hleads⟩ := hpaths place hmem
  exact hplace path hpath hleads

/-! ## Paths with longer names -/

theorem follow_append (d : Disk) (parts more : List String) (here : Place) :
    follow d here (parts ++ more) = (follow d here parts).bind fun here => follow d here more := by
  induction parts generalizing here with
  | nil => rfl
  | cons part parts ih =>
    simp only [List.cons_append, follow, ih]
    split
    · rfl
    · split
      · rfl
      · split
        · split <;> rfl
        · rfl

/-- What is followed through the folders of a disk is followed where they are still there. -/
theorem follow_of_folders
    (h : ∀ place, Entry.seen d place = some none → Entry.seen d' place = some none)
    {parts : List String} {here : Place} (hfollow : follow d here parts = some place) :
    follow d' here parts = some place := by
  induction parts generalizing here with
  | nil => exact hfollow
  | cons part parts ih =>
    rw [follow] at hfollow ⊢
    split at hfollow
    · cases hfollow
    rename_i hfolder
    rw [Bool.not_eq_true, Bool.not_eq_false', hasFolder_iff] at hfolder
    rw [hasFolder_iff.mpr (h here hfolder)]
    simp only [Bool.not_true, Bool.false_eq_true, if_false]
    split_ifs at hfollow ⊢
    · exact ih hfollow
    · exact ih hfollow
    · exact ih hfollow

theorem place?_of_folders
    (h : ∀ place, Entry.seen d place = some none → Entry.seen d' place = some none)
    (hplace : place? d path = some place) : place? d' path = some place := by
  rw [place?] at hplace ⊢
  split_ifs at hplace ⊢
  exact follow_of_folders h hplace

/-- The last part of a path leads on from a folder. -/
theorem follow_singleton {here : Place} (hhere : Entry.seen d here = some none) (part : String) :
    follow d here [part] =
      if part = "" ∨ part = "." then some here
      else if part = ".." then if here.isEmpty then none else some here.dropLast
      else some (here ++ [part]) := by
  rw [follow, hasFolder_iff.mpr hhere]
  rfl

/-- The last part of a path that leads to a file is the name of the file. -/
theorem last_of_look {content : List UInt8} {parts : List String} {last : String}
    (h : look d path = some (some content)) (hparts : pathParts path = parts ++ [last]) :
    ∃ folder, follow d [] parts = some folder ∧ Entry.seen d folder = some none ∧
      place? d path = some (folder ++ [last]) ∧ last ≠ "" ∧ last ≠ "." ∧ last ≠ ".." := by
  obtain ⟨place, hplace, hseen⟩ := Option.bind_eq_some_iff.mp h
  have hpath : path ≠ "" := by
    rintro rfl
    exact absurd hplace (by simp [place?])
  have hleads := hplace
  rw [place?, if_neg hpath, hparts, follow_append] at hleads
  obtain ⟨folder, hfollow, hlast⟩ := Option.bind_eq_some_iff.mp hleads
  have hfolder : Entry.seen d folder = some none := by
    rw [follow] at hlast
    by_contra hnone
    rw [← hasFolder_iff] at hnone
    simp [hnone] at hlast
  rw [follow_singleton hfolder] at hlast
  refine ⟨folder, hfollow, hfolder, ?_⟩
  -- The last part is a name: everything else would lead to a folder.
  split_ifs at hlast with hhere hup htop
  · obtain rfl := Option.some.inj hlast
    exact absurd (hfolder.symm.trans hseen) (by simp)
  · obtain rfl := Option.some.inj hlast
    rw [List.isEmpty_iff] at htop
    rw [← List.dropLast_append_getLast htop] at hfolder
    exact absurd ((Entry.seen_of_below hfolder).symm.trans hseen) (by simp)
  · rw [not_or] at hhere
    exact ⟨hplace.trans hlast.symm, hhere.1, hhere.2, hup⟩

/-- **Beside a file there is room for longer names.** A path that leads to a file leads to a name in
a folder, and with a few characters more to that name with these characters, in the same folder. -/
theorem exists_place_of_look {content : List UInt8} (h : look d path = some (some content)) :
    ∃ folder name, place? d path = some (folder ++ [name]) ∧ Entry.seen d folder = some none ∧
      ∀ more : String, '/' ∉ more.toList → 2 < more.length →
        place? d (path ++ more) = some (folder ++ [name ++ more]) := by
  obtain ⟨parts, last, hparts⟩ := Text.exists_split_append '/' path
  have hown : pathParts path = parts ++ [last] := by simpa [pathParts] using hparts "" (by simp)
  obtain ⟨folder, hfollow, hfolder, hplace, -⟩ := last_of_look h hown
  refine ⟨folder, last, hplace, hfolder, fun more hmore hlong => ?_⟩
  have hlength : ∀ special : String, special.length ≤ 2 → last ++ more ≠ special := by
    rintro _ hspecial rfl
    rw [String.length_append] at hspecial
    omega
  have hmorePath : path ++ more ≠ "" := by
    intro hempty
    rw [String.append_eq_empty_iff] at hempty
    rw [hempty.2] at hlong
    exact absurd hlong (by decide)
  rw [place?, if_neg hmorePath, pathParts, hparts more hmore, follow_append, hfollow,
    Option.bind_some, follow_singleton hfolder, if_neg, if_neg (hlength ".." (by decide))]
  rw [not_or]
  exact ⟨hlength "" (by decide), hlength "." (by decide)⟩

/-! ## Operations -/

theorem look_of_place (h : place? d path = some place) : look d path = Entry.seen d place := by
  rw [look, h, Option.bind_some]

theorem contains_of_place (h : place? d path = some place) :
    contains d path = (Entry.seen d place).isSome := by
  rw [Bool.eq_iff_iff, contains_iff, look_of_place h, Option.isSome_iff_exists]

theorem find?_of_look {content : List UInt8} (h : look d path = some (some content)) :
    find? d path = some (.file content) := by
  rw [look_eq_map_find?] at h
  obtain ⟨e, he, hcontent⟩ := Option.map_eq_some_iff.mp h
  cases e with
  | file _ => rw [he, Option.some.inj hcontent]
  | folder entries => cases hcontent

/-- A file is written in a folder, or not at all. -/
theorem write_cases {folder : Place} {name : String}
    (hplace : place? d path = some (folder ++ [name])) (hfolder : Entry.seen d folder = some none)
    (content : List UInt8) :
    (∃ e, write d path content = .error e) ∨
      ∃ d', write d path content = .ok d' ∧
        (∀ places, folder ++ [name] ∈ places → SameBut places d d') ∧
        ∀ place, Entry.seen d' place =
          if place = folder ++ [name] then some (some content) else Entry.seen d place := by
  rw [write, hplace]
  simp only
  split
  · exact .inl ⟨_, rfl⟩
  · rename_i hfree
    rw [hasFolder_iff] at hfree
    have hseen := Entry.seen_put hfolder hfree content
    exact .inr ⟨_, rfl, fun places hmem => sameBut_of_seen hseen (by simp) hfree hmem, hseen⟩

section Rename

variable {source target name other : String} {folder folder' : Place} {content : List UInt8}
  (hsource : place? d source = some (folder ++ [name]))
  (htarget : place? d target = some (folder' ++ [other]))
  (hne : folder ++ [name] ≠ folder' ++ [other])
  (hcontent : look d source = some (some content))
  (hfolder' : Entry.seen d folder' = some none)

include hsource htarget hne hcontent hfolder'

/-- A file that is moved is taken away and put in its new place, unless a folder is there. -/
theorem rename_file :
    rename d source target =
      if Entry.seen d (folder' ++ [other]) = some none then
        .error (.folder s!"rename '{source}' -> '{target}'")
      else .ok (Entry.put (.file content) (folder' ++ [other])
        (Entry.remove (folder ++ [name]) d)) := by
  have hfind := find?_of_look hcontent
  rw [look_of_place hsource] at hcontent
  have hnoFolder : Entry.seen d (folder ++ [name]) ≠ some none := by simp [hcontent]
  -- A file is no part of the way to a folder.
  have habove : folder ++ [name] ≠ folder' := by
    rintro rfl
    exact hnoFolder hfolder'
  have hapart : (folder ++ [name]).isPrefixOf (folder' ++ [other]) = false := by
    rw [Bool.eq_false_iff, Ne, List.isPrefixOf_iff_prefix, List.prefix_concat_iff, not_or]
    exact ⟨hne, Entry.not_prefix_of_seen hfolder' hnoFolder habove⟩
  rw [rename, Entry.seen]
  simp only [hsource, htarget, hfind, hapart, hne, if_false, Bool.false_eq_true]
  cases Entry.at? d (folder' ++ [other]) with
  | none => rfl
  | some e => cases e <;> rfl

/-- **A file is moved** to a name in a folder, where no folder is in its way. -/
theorem exists_rename (hfree : Entry.seen d (folder' ++ [other]) ≠ some none) :
    ∃ d', rename d source target = .ok d' ∧
      (∀ places, folder ++ [name] ∈ places → folder' ++ [other] ∈ places → SameBut places d d') ∧
      ∀ place, Entry.seen d' place =
        if place = folder' ++ [other] then some (some content)
        else if place = folder ++ [name] then none else Entry.seen d place := by
  have hrename := rename_file hsource htarget hne hcontent hfolder'
  rw [if_neg hfree] at hrename
  rw [look_of_place hsource] at hcontent
  have hsourceFree : Entry.seen d (folder ++ [name]) ≠ some none := by simp [hcontent]
  have habove : folder' ≠ folder ++ [name] := by
    rintro rfl
    exact hsourceFree hfolder'
  have hremoved := Entry.seen_remove (Entry.seen_of_below hcontent) hsourceFree
  have htargetFree : Entry.seen (Entry.remove (folder ++ [name]) d) (folder' ++ [other]) ≠
      some none := by
    rw [hremoved, if_neg hne.symm]
    exact hfree
  have hfolderLeft : Entry.seen (Entry.remove (folder ++ [name]) d) folder' = some none := by
    rw [hremoved, if_neg habove, hfolder']
  have hput := Entry.seen_put hfolderLeft htargetFree content
  refine ⟨_, hrename, fun places hname hother => ?_, fun place => by rw [hput, hremoved]⟩
  exact (sameBut_of_seen hremoved (by simp) hsourceFree hname).trans
    (sameBut_of_seen hput (by simp) htargetFree hother)

end Rename

end Disk

end Bestiary
