import Bestiary.Proofs.Store.Disk
import Bestiary.Proofs.Store.Shape

/-!
# Paths and the places they lead to

A path that leads to a place is simplified to the parts of that place, whatever is on the disk. In
the other direction, the text of a place leads there as long as its folder is there.

* `IsStep` says of a part that it leads to something of that name; places are made of such parts.
* `Disk.simplified_of_place?` and `Disk.place?_partsText` are the two directions.
* `joinPath_partsText` adds a name to a path, `Disk.split_of_place?` splits the path of a file.
* `Disk.makeFolders_partsText`: a folder is made in a folder that is there.
-/

namespace Bestiary

/-- A part of a path that leads to something of that name: a name other than a dot and two dots. -/
structure IsStep (part : String) : Prop where
  name : IsName part
  ne_here : part ≠ "."
  ne_up : part ≠ ".."

namespace IsStep

variable {part : String} {parts : List String}

theorem ne_empty (h : IsStep part) : part ≠ "" := h.name.1

theorem plain (h : IsStep part) : '/' ∉ part.toList := h.name.2

theorem addPart (h : IsStep part) (parts : List String) :
    Bestiary.addPart parts part = parts ++ [part] := by
  rw [Bestiary.addPart, if_neg (not_or.mpr ⟨h.ne_empty, h.ne_here⟩), if_neg h.ne_up]

theorem pathParts (h : IsStep part) : Bestiary.pathParts part = [part] :=
  Text.split_of_not_mem h.plain

theorem deletedFolder : IsStep Bestiary.deletedFolder :=
  ⟨by decide, by decide, by decide⟩

/-- A step stays one with something and a dot in front. -/
theorem dotted (h : IsStep part) {front : String} (hne : front ≠ "") (hplain : '/' ∉ front.toList) :
    IsStep (front ++ "." ++ part) := by
  have hfront : 0 < front.length := Nat.pos_of_ne_zero (by simpa using hne)
  have hpart : 0 < part.length := Nat.pos_of_ne_zero (by simpa using h.ne_empty)
  have hlength : ∀ special : String, special.length ≤ 2 → front ++ "." ++ part ≠ special := by
    rintro _ hspecial rfl
    rw [String.length_append, String.length_append, show ".".length = 1 from rfl] at hspecial
    omega
  refine ⟨⟨hlength "" (by decide), ?_⟩, hlength "." (by decide), hlength ".." (by decide)⟩
  simp [hplain, h.plain]

theorem concat (h : ∀ part ∈ parts, IsStep part) (hpart : IsStep part) :
    ∀ other ∈ parts ++ [part], IsStep other := by
  simpa [or_imp, forall_and, hpart] using h

theorem foldl_addPart (h : ∀ part ∈ parts, IsStep part) (front : List String) :
    parts.foldl Bestiary.addPart front = front ++ parts := by
  induction parts generalizing front with
  | nil => rw [List.foldl_nil, List.append_nil]
  | cons part parts ih =>
    rw [List.forall_mem_cons] at h
    rw [List.foldl_cons, h.1.addPart, ih h.2, List.append_assoc, List.singleton_append]

end IsStep

/-! ## Texts of paths -/

variable {parts : List String} {name : String}

theorem pathParts_partsText (hne : parts ≠ []) (h : ∀ part ∈ parts, '/' ∉ part.toList) :
    pathParts (partsText parts) = parts := by
  rw [partsText, if_neg (by simpa using hne), pathParts]
  exact Text.split_intercalate hne h

/-- The parts of a joined path are simplified as they are. -/
theorem simplified_partsText (h : ∀ part ∈ parts, '/' ∉ part.toList) :
    simplified (partsText parts) = parts.foldl addPart [] := by
  cases parts with
  | nil => rfl
  | cons part parts => rw [simplified, pathParts_partsText (List.cons_ne_nil _ _) h]

/-- A step below a path. -/
theorem joinPath_name (path : String) (hstep : IsStep name) :
    joinPath path name = partsText (simplified path ++ [name]) := by
  have hparts : pathParts s!"{path}/{name}" = pathParts path ++ [name] := by
    rw [← hstep.pathParts]
    exact Text.split_append '/' path name
  rw [joinPath, simplified, hparts, List.foldl_append, List.foldl_cons, List.foldl_nil,
    hstep.addPart]
  rfl

/-- A step below a path of steps. -/
theorem joinPath_partsText (h : ∀ part ∈ parts, IsStep part) (hstep : IsStep name) :
    joinPath (partsText parts) name = partsText (parts ++ [name]) := by
  rw [joinPath_name _ hstep, simplified_partsText fun part hpart => (h part hpart).plain,
    IsStep.foldl_addPart h, List.nil_append]

/-- The path of a name splits into what is in front of the name and the name. -/
theorem ownParts_of_pathParts {path : String} (hname : name ≠ "")
    (h : pathParts path = parts ++ [name]) : ownParts path = parts ++ [name] := by
  rw [ownParts, h, List.reverse_append, List.reverse_singleton, List.singleton_append,
    List.dropWhile_cons_of_neg (by simpa using hname), List.reverse_cons, List.reverse_reverse]

namespace Disk

variable {d : Disk} {path : String} {place folder here : Place}

/-! ## Places of paths -/

/-- Parts that are followed from a place lead to where they are simplified to. -/
theorem foldl_addPart_of_follow (hparts : ∀ part ∈ parts, '/' ∉ part.toList)
    (hhere : ∀ part ∈ here, IsStep part) (h : follow d here parts = some place) :
    parts.foldl addPart here = place ∧ ∀ part ∈ place, IsStep part := by
  induction parts generalizing here with
  | nil =>
    obtain rfl := Option.some.inj h
    exact ⟨rfl, hhere⟩
  | cons part parts ih =>
    rw [List.forall_mem_cons] at hparts
    rw [List.foldl_cons, Bestiary.addPart]
    rw [follow] at h
    split at h
    · cases h
    by_cases hstay : part = "" ∨ part = "."
    · rw [if_pos hstay] at h ⊢
      exact ih hparts.2 hhere h
    by_cases hup : part = ".."
    · rw [if_neg hstay, if_pos hup] at h ⊢
      split at h
      · cases h
      rename_i htop
      obtain ⟨front, last, rfl⟩ : ∃ front last, here = front ++ [last] :=
        ⟨_, _, (List.dropLast_append_getLast (by simpa using htop)).symm⟩
      have hlast := hhere last (List.mem_append_right _ List.mem_cons_self)
      rw [List.dropLast_concat] at h
      simp only [List.getLast?_concat, hlast.ne_up, if_false, List.dropLast_concat]
      exact ih hparts.2 (fun part hpart => hhere part (List.mem_append_left _ hpart)) h
    · rw [if_neg hstay, if_neg hup] at h ⊢
      refine ih hparts.2 (fun other hother => ?_) h
      rw [not_or] at hstay
      rcases List.mem_append.mp hother with hother | hother
      · exact hhere other hother
      · rw [List.mem_singleton.mp hother]
        exact ⟨⟨hstay.1, hparts.1⟩, hstay.2, hup⟩

theorem follow_of_place? (h : place? d path = some place) :
    follow d [] (pathParts path) = some place := by
  rw [place?] at h
  split_ifs at h
  exact h

/-- **A path that leads to a place is simplified to it.** -/
theorem simplified_of_place? (h : place? d path = some place) : simplified path = place :=
  (foldl_addPart_of_follow (fun _ => Text.not_mem_of_mem_split) (by simp) (follow_of_place? h)).1

/-- Places are made of steps. -/
theorem isStep_of_place? (h : place? d path = some place) : ∀ part ∈ place, IsStep part :=
  (foldl_addPart_of_follow (fun _ => Text.not_mem_of_mem_split) (by simp) (follow_of_place? h)).2

/-- Steps are followed through folders. -/
theorem follow_steps (hsteps : ∀ part ∈ parts, IsStep part)
    (h : Entry.seen d (here ++ parts) = some none) (more : List String) :
    follow d here (parts ++ more) = follow d (here ++ parts) more := by
  induction parts generalizing here with
  | nil => rw [List.nil_append, List.append_nil]
  | cons part parts ih =>
    rw [List.forall_mem_cons] at hsteps
    have hfolder := hasFolder_iff.mpr (Entry.seen_of_below h)
    rw [List.append_cons] at h
    rw [List.cons_append, follow, hfolder, Bool.not_true, if_neg (by decide),
      if_neg (not_or.mpr ⟨hsteps.1.ne_empty, hsteps.1.ne_here⟩), if_neg hsteps.1.ne_up,
      ih hsteps.2 h, List.append_cons here part parts]

/-- **The text of a place in a folder leads there.** -/
theorem place?_partsText (hfolder : Entry.seen d folder = some none)
    (hsteps : ∀ part ∈ folder, IsStep part) (hstep : IsStep name) :
    place? d (partsText (folder ++ [name])) = some (folder ++ [name]) := by
  have hplain := fun part hpart => (IsStep.concat hsteps hstep part hpart).plain
  have hparts := pathParts_partsText (by simp) hplain
  have hpath : partsText (folder ++ [name]) ≠ "" := by
    intro hempty
    have hempty' : [""] = folder ++ [name] := by rw [← hparts, hempty]; rfl
    have hlast : "" = name := by simpa using congrArg List.getLast? hempty'
    exact hstep.ne_empty hlast.symm
  rw [place?, if_neg hpath, hparts, follow_steps hsteps hfolder, List.nil_append,
    follow_singleton hfolder, if_neg (not_or.mpr ⟨hstep.ne_empty, hstep.ne_here⟩),
    if_neg hstep.ne_up]

/-- **The path of a file splits** into the path of its folder and its name. -/
theorem split_of_place? {content : List UInt8} (hplace : place? d path = some (folder ++ [name]))
    (h : Entry.seen d (folder ++ [name]) = some (some content)) :
    simplified (folderOf path) = folder ∧ nameIn path = name := by
  obtain ⟨parts, last, hsplit⟩ := Text.exists_split_append '/' path
  have hparts : pathParts path = parts ++ [last] := by simpa [pathParts] using hsplit "" (by simp)
  obtain ⟨folder', hfollow, -, hplace', hempty, -⟩ :=
    last_of_look ((look_of_place hplace).trans h) hparts
  obtain ⟨rfl, hlast⟩ := List.append_inj' (Option.some.inj (hplace.symm.trans hplace')) rfl
  have hown := ownParts_of_pathParts hempty hparts
  have hplain : ∀ part ∈ parts, '/' ∉ part.toList := fun part hpart =>
    Text.not_mem_of_mem_split (hparts ▸ List.mem_append_left [last] hpart)
  constructor
  · rw [folderOf, hown, List.dropLast_concat, simplified_partsText hplain]
    exact (foldl_addPart_of_follow hplain (by simp) hfollow).1
  · rw [nameIn, hown, List.getLast?_concat, Option.getD_some, List.singleton_inj.mp hlast]

/-! ## Making folders -/

/-- Folders that are there are gone through. -/
theorem makeAlong_steps (hsteps : ∀ part ∈ parts, IsStep part)
    (h : Entry.seen d (here ++ parts) = some none) (operation : String) (more : List String) :
    makeAlong operation d here (parts ++ more) = makeAlong operation d (here ++ parts) more := by
  induction parts generalizing here with
  | nil => rw [List.nil_append, List.append_nil]
  | cons part parts ih =>
    rw [List.forall_mem_cons] at hsteps
    rw [List.append_cons] at h
    have hfolder : Entry.seen d (here ++ [part]) = some none := by
      cases parts with
      | nil => simpa using h
      | cons next parts => exact Entry.seen_of_below h
    obtain ⟨entries, hentries⟩ := Entry.exists_of_seen_folder hfolder
    rw [List.cons_append, makeAlong, if_neg (not_or.mpr ⟨hsteps.1.ne_empty, hsteps.1.ne_here⟩),
      if_neg hsteps.1.ne_up, hentries]
    simp only
    rw [ih hsteps.2 h, List.append_cons here part parts]

/-- **A folder is made in a folder**, unless a file is in its way. -/
theorem makeFolders_partsText (hfolder : Entry.seen d folder = some none)
    (hsteps : ∀ part ∈ folder, IsStep part) (hstep : IsStep name) :
    makeFolders d (partsText (folder ++ [name])) =
      match Entry.seen d (folder ++ [name]) with
      | some (some _) => .error (.occupied s!"mkdir '{partsText (folder ++ [name])}'")
      | some none => .ok d
      | none => .ok (Entry.put (.folder []) (folder ++ [name]) d) := by
  have hplain := fun part hpart => (IsStep.concat hsteps hstep part hpart).plain
  rw [makeFolders, pathParts_partsText (by simp) hplain, makeAlong_steps hsteps hfolder,
    List.nil_append, makeAlong, if_neg (not_or.mpr ⟨hstep.ne_empty, hstep.ne_here⟩),
    if_neg hstep.ne_up, Entry.seen]
  cases Entry.at? d (folder ++ [name]) with
  | none => rfl
  | some e => cases e <;> rfl

end Disk

end Bestiary
