import Bestiary.Mob.Resolve
import Bestiary.Proofs.Data.Except
import Bestiary.Proofs.Data.Table
import Bestiary.Proofs.Text.Order
import Bestiary.Proofs.Toml.Keyed

/-!
# Layers, name by name

The state between files is a table under all names. What it holds under one name depends only on
the files of that name: each step is said of one name, and a run over files then comes to the files
of that name alone.

* `byPath_filter`: some of the files stand in the same order among all files as by themselves.
* `byPath_eq_of_perm`: files with different paths are taken in one order, however they are listed.
* `Layered.get?_foldl_extend`: of the extended files of a name, the last one counts.
* `Layered.get?_foldl_patch`: the patches of a name are laid over it one after the other.
* `Layered.get?_layer`: the layers hold under a name what the files of the name define.
-/

namespace Bestiary

/-! ## The order of files -/

section Sorting

variable {α : Type}

/-- A list is cut in only one way into items without a property and items with it. -/
theorem append_inj_of_split {q : α → Bool} {a b c d : List α} (h : a ++ b = c ++ d)
    (ha : ∀ x ∈ a, q x = false) (hb : ∀ x ∈ b, q x = true) (hc : ∀ x ∈ c, q x = false)
    (hd : ∀ x ∈ d, q x = true) : a = c ∧ b = d := by
  induction a generalizing c with
  | nil =>
    cases c with
    | nil => exact ⟨rfl, h⟩
    | cons x c =>
      have hx : q x = true := hb x (by rw [List.nil_append] at h; simp [h])
      exact absurd (hc x List.mem_cons_self) (by simp [hx])
  | cons x a ih =>
    cases c with
    | nil =>
      have hx : q x = true := hd x (by rw [List.nil_append] at h; simp [← h])
      exact absurd (ha x List.mem_cons_self) (by simp [hx])
    | cons y c =>
      rw [List.cons_append, List.cons_append, List.cons.injEq] at h
      rw [List.forall_mem_cons] at ha hc
      obtain ⟨rfl, rfl⟩ := ih h.2 ha.2 hc.2
      exact ⟨by rw [h.1], rfl⟩

/-- **A stable sort leaves some of the items in the order that it gives them by themselves.** -/
theorem filter_mergeSort (le : α → α → Bool)
    (trans : ∀ a b c : α, le a b = true → le b c = true → le a c = true)
    (total : ∀ a b : α, (le a b || le b a) = true) (p : α → Bool) (l : List α) :
    (l.mergeSort le).filter p = (l.filter p).mergeSort le := by
  -- The sort puts a new first item in front of the items that it ties with.
  have hafter : ∀ a l₁ l₂ (l : List α), (a :: l).mergeSort le = l₁ ++ a :: l₂ →
      ∀ b ∈ l₂, le a b = true := by
    intro a l₁ l₂ l h
    have hsorted := List.pairwise_mergeSort trans total (a :: l)
    rw [h] at hsorted
    exact (List.pairwise_cons.mp (List.pairwise_append.mp hsorted).2.1).1
  induction l with
  | nil => simp
  | cons a l ih =>
    obtain ⟨l₁, l₂, hcons, hl, hbefore⟩ := List.mergeSort_cons trans total a l
    rw [hcons, List.filter_append, List.filter_cons]
    by_cases hp : p a = true
    · obtain ⟨m₁, m₂, hcons', hm, hbefore'⟩ := List.mergeSort_cons trans total a (l.filter p)
      have hsplit : l₁.filter p ++ l₂.filter p = m₁ ++ m₂ := by
        rw [← List.filter_append, ← hl, ih, hm]
      obtain ⟨h₁, h₂⟩ := append_inj_of_split (q := le a) hsplit
        (fun x hx => by simpa using hbefore x (List.mem_of_mem_filter hx))
        (fun x hx => hafter a l₁ l₂ l hcons x (List.mem_of_mem_filter hx))
        (fun x hx => by simpa using hbefore' x hx) (hafter a m₁ m₂ _ hcons')
      rw [if_pos hp, List.filter_cons_of_pos hp, hcons', h₁, h₂]
    · rw [if_neg hp, List.filter_cons_of_neg hp, ← List.filter_append, ← hl, ih]

end Sorting

/-- Some of the files stand in the same order among all files as by themselves. -/
theorem byPath_filter (p : SourceFile → Bool) (files : List SourceFile) :
    (byPath files).filter p = byPath (files.filter p) := by
  rw [byPath, byPath]
  refine filter_mergeSort _ ?_ ?_ p files
  · exact fun _ _ _ => Text.notAfter_trans
  · exact fun a b => Text.notAfter_total a.path b.path

theorem byPath_perm (files : List SourceFile) : (byPath files).Perm files :=
  List.mergeSort_perm _ _

/-- **Files with different paths are taken in one order**, however they are listed. -/
theorem byPath_eq_of_perm {files files' : List SourceFile} (h : files.Perm files')
    (hdistinct : (files.map SourceFile.path).Nodup) : byPath files = byPath files' := by
  have hsorted : ∀ files, (byPath files).Pairwise fun a b => Text.notAfter a.path b.path = true :=
    List.pairwise_mergeSort (fun _ _ _ => Text.notAfter_trans) fun _ _ => Text.notAfter_total _ _
  refine List.Perm.eq_of_pairwise ?_ (hsorted files) (hsorted files')
    ((byPath_perm files).trans (h.trans (byPath_perm files').symm))
  intro a b ha hb hab hba
  have ha : a ∈ files := (byPath_perm files).mem_iff.mp ha
  have hb : b ∈ files := h.mem_iff.mpr ((byPath_perm files').mem_iff.mp hb)
  exact List.inj_on_of_nodup_map hdistinct ha hb (Text.notAfter_antisymm hab hba)

/-- What is read from a file has no key twice. -/
theorem SourceFile.wellKeyed_of_parse {f : SourceFile} {t : Table Value} (h : f.parse = .ok t) :
    Data.WellKeyed (.table t) := by
  unfold parse Toml.Content.parse at h
  cases hcontent : f.content with
  | text s =>
    rw [hcontent] at h
    exact Toml.wellKeyed_of_parse h
  | bytes bs =>
    rw [hcontent] at h
    exact Toml.wellKeyed_of_parse h

/-! ## The files of a name -/

/-- The files of a layer that a name belongs to, in the order in which they are listed. -/
def filesNamed (root name : String) (files : List SourceFile) : List SourceFile :=
  files.filter fun f => nameOf root f.path = name

/-- The tables in those of the files that can be read. -/
def tablesIn (files : List SourceFile) : List (Table Value) :=
  files.filterMap fun f => f.parse.toOption

/-- **The definition that sources give a name**: the table of the last extended file of the name, or
else of the last base file, with the patches of the name laid over it one after the other. Files
stand in the order of their paths, files that cannot be read are left out, and without a table to
start from there is no definition. -/
def Sources.definition? (s : Sources) (root name : String) : Option Value :=
  let tables (files : List SourceFile) := tablesIn (byPath (filesNamed root name files))
  ((tables s.extended).getLast?.or (tables s.base).getLast?).map fun start =>
    (tables s.patches).foldl (fun (v : Value) patch => v.merge (.table patch)) (.table start)

theorem filesNamed_cons (root name : String) (f : SourceFile) (files : List SourceFile) :
    filesNamed root name (f :: files) =
      if nameOf root f.path = name then f :: filesNamed root name files
      else filesNamed root name files := by
  simp [filesNamed, List.filter_cons]

theorem filesNamed_byPath (root name : String) (files : List SourceFile) :
    filesNamed root name (byPath files) = byPath (filesNamed root name files) :=
  byPath_filter _ files

theorem tablesIn_cons (f : SourceFile) (files : List SourceFile) :
    tablesIn (f :: files) = f.parse.toOption.toList ++ tablesIn files := by
  unfold tablesIn
  rw [List.filterMap_cons]
  cases f.parse.toOption <;> rfl

/-- Tables laid over a table, as values. -/
theorem foldl_merge_table (start : Table Value) (patches : List (Table Value)) :
    patches.foldl (fun (v : Value) patch => v.merge (.table patch)) (.table start) =
      .table (patches.foldl Value.overlay start) := by
  induction patches generalizing start with
  | nil => rfl
  | cons patch patches ih => rw [List.foldl_cons, List.foldl_cons, Value.merge_table, ih]

namespace Layered

variable {root name : String}

/-! ## What one file does to one name -/

theorem get?_extend (l : Layered) (f : SourceFile) :
    (l.extend root f).tables.get? name =
      if nameOf root f.path = name then f.parse.toOption.or (l.tables.get? name)
      else l.tables.get? name := by
  unfold extend
  cases f.parse with
  | error e => simp [Except.toOption]
  | ok t => simp [Except.toOption]

theorem get?_patch (l : Layered) (f : SourceFile) :
    (l.patch root f).tables.get? name =
      if nameOf root f.path = name then
        (l.tables.get? name).map fun t => f.parse.toOption.elim t (Value.overlay t)
      else l.tables.get? name := by
  unfold patch
  cases f.parse with
  | error e => simp [Except.toOption]
  | ok t =>
    by_cases hname : nameOf root f.path = name
    · subst hname
      cases htarget : l.tables.get? (nameOf root f.path) <;> simp [htarget, Except.toOption]
    · cases htarget : l.tables.get? (nameOf root f.path) <;> simp [htarget, hname]

/-! ## What the files of a layer do to one name -/

/-- What is found under a key that entries are written to in turn is the last of them. -/
theorem get?_setAll_of_readBase {files : List SourceFile} {tables : List (String × Table Value)}
    (h : readBase root files = .ok tables) (t : Table (Table Value)) :
    (Table.setAll t tables).get? name =
      (tablesIn (filesNamed root name files)).getLast?.or (t.get? name) := by
  rw [readBase, Except.mapM_eq_ok_iff] at h
  induction h generalizing t with
  | nil => rfl
  | @cons e f tables files hf _ ih =>
    rw [Table.setAll, List.foldl_cons, ← Table.setAll, ih, filesNamed_cons]
    cases hparse : f.parse with
    | error e => simp [hparse] at hf
    | ok table =>
      simp only [hparse, Except.ok.injEq] at hf
      subst hf
      rw [Table.get?_set]
      split
      · rw [tablesIn_cons, hparse, List.getLast?_append]
        cases (tablesIn (filesNamed root name files)).getLast? <;> rfl
      · rfl

/-- Of the extended files of a name, the last one counts. -/
theorem get?_foldl_extend (l : Layered) (files : List SourceFile) :
    (files.foldl (extend root) l).tables.get? name =
      (tablesIn (filesNamed root name files)).getLast?.or (l.tables.get? name) := by
  induction files generalizing l with
  | nil => rfl
  | cons f files ih =>
    rw [List.foldl_cons, ih, get?_extend, filesNamed_cons]
    split
    · rw [tablesIn_cons, List.getLast?_append]
      cases (tablesIn (filesNamed root name files)).getLast? <;> cases f.parse <;> rfl
    · rfl

/-- The patches of a name are laid over it one after the other. -/
theorem get?_foldl_patch (l : Layered) (files : List SourceFile) :
    (files.foldl (patch root) l).tables.get? name =
      (l.tables.get? name).map fun t =>
        (tablesIn (filesNamed root name files)).foldl Value.overlay t := by
  induction files generalizing l with
  | nil =>
    rw [List.foldl_nil]
    cases l.tables.get? name <;> rfl
  | cons f files ih =>
    rw [List.foldl_cons, ih, get?_patch, filesNamed_cons]
    split
    · rw [Option.map_map, tablesIn_cons]
      cases f.parse <;> rfl
    · rfl

/-! ## Names -/

/-- A step leaves no name twice. -/
theorem nodup_extend {l : Layered} (h : l.tables.keys.Nodup) (f : SourceFile) :
    (l.extend root f).tables.keys.Nodup := by
  unfold extend
  split
  · exact h
  · exact Table.nodup_keys_set h _ _

theorem nodup_patch {l : Layered} (h : l.tables.keys.Nodup) (f : SourceFile) :
    (l.patch root f).tables.keys.Nodup := by
  unfold patch
  split
  · exact h
  · simp only
    split
    · exact h
    · exact Table.nodup_keys_set h _ _

theorem nodup_ofBase (tables : List (String × Table Value)) :
    (ofBase tables).tables.keys.Nodup :=
  List.foldlRecOn (motive := fun t => (Table.keys t).Nodup) tables _ List.nodup_nil
    fun _ h _ _ => Table.nodup_keys_set h _ _

/-! ## All layers -/

/-- Sources have layers iff their base files can be read: the extended files and then the patches
are taken in turn. -/
theorem layer_eq_ok_iff {s : Sources} {l : Layered} :
    layer root s = .ok l ↔ ∃ tables, readBase root (byPath s.base) = .ok tables ∧
      (byPath s.patches).foldl (patch root)
        ((byPath s.extended).foldl (extend root) (.ofBase tables)) = l := by
  unfold layer
  cases readBase root (byPath s.base) <;> simp

/-- **The layers hold under a name what the files of the name define.** -/
theorem get?_layer {s : Sources} {l : Layered} (h : layer root s = .ok l) :
    (l.tables.get? name).map .table = s.definition? root name := by
  obtain ⟨tables, hbase, rfl⟩ := layer_eq_ok_iff.mp h
  have hget : (ofBase tables).tables.get? name =
      (tablesIn (filesNamed root name (byPath s.base))).getLast? := by
    refine (get?_setAll_of_readBase hbase []).trans ?_
    cases (tablesIn (filesNamed root name (byPath s.base))).getLast? <;> rfl
  rw [get?_foldl_patch, get?_foldl_extend, hget, Option.map_map]
  simp only [filesNamed_byPath, Sources.definition?, foldl_merge_table]
  rfl

/-- No name occurs twice in the layers. -/
theorem nodup_layer {s : Sources} {l : Layered} (h : layer root s = .ok l) :
    l.tables.keys.Nodup := by
  obtain ⟨tables, -, rfl⟩ := layer_eq_ok_iff.mp h
  have hextended : ((byPath s.extended).foldl (extend root) (ofBase tables)).tables.keys.Nodup :=
    List.foldlRecOn (motive := fun l : Layered => l.tables.keys.Nodup) _ _ (nodup_ofBase tables)
      fun _ hl f _ => nodup_extend hl f
  exact List.foldlRecOn (motive := fun l : Layered => l.tables.keys.Nodup) _ _ hextended
    fun _ hl f _ => nodup_patch hl f

end Layered

end Bestiary
