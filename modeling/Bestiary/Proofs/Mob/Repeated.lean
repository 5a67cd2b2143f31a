import Bestiary.Proofs.Data.Layering
import Bestiary.Proofs.Mob.Resolve

/-!
# Patches that are listed twice

A patch that is listed again right after itself is also taken again right after itself, and then it
has nothing left to change.

* `mergeSort_cons_eq`: a stable sort inserts the items one by one, so items that follow each other
  and tie still follow each other once sorted (`Doubles.byPath`).
* `Layered.tables_patch_patch`: a patch leaves the definitions as it made them.
* `patching_again` says this of values and of whole resolutions.
-/

namespace Bestiary

/-! ## The order of files -/

section Sorting

variable {α : Type}

/-- A stable sort puts a new first item in front of all that it does not stand after. -/
theorem mergeSort_cons_eq {le : α → α → Bool}
    (trans : ∀ a b c : α, le a b = true → le b c = true → le a c = true)
    (total : ∀ a b : α, (le a b || le b a) = true) (a : α) (l : List α) :
    (a :: l).mergeSort le = (l.mergeSort le).orderedInsert (fun x y => le x y = true) a := by
  obtain ⟨l₁, l₂, hcons, hl, hbefore⟩ := List.mergeSort_cons trans total a l
  have hfront : ∀ b ∈ l₁, decide ¬le a b = true := by
    intro b hb
    simpa using hbefore b hb
  have hback : ∀ b ∈ l₂, le a b = true := by
    have hsorted := List.pairwise_mergeSort trans total (a :: l)
    rw [hcons] at hsorted
    exact (List.pairwise_cons.mp (List.pairwise_append.mp hsorted).2.1).1
  have hstop : l₂.takeWhile (fun b => decide ¬le a b = true) = [] ∧
      l₂.dropWhile (fun b => decide ¬le a b = true) = l₂ := by
    cases l₂ with
    | nil => exact ⟨rfl, rfl⟩
    | cons b l₂ => simp [hback b List.mem_cons_self]
  rw [hcons, List.orderedInsert_eq_take_drop, hl, List.takeWhile_append_of_pos hfront,
    List.dropWhile_append_of_pos hfront, hstop.1, hstop.2, List.append_nil]

/-- The second list is the first with one `a` in it written twice. -/
def Doubles (a : α) (l l' : List α) : Prop :=
  ∃ front back, l = front ++ a :: back ∧ l' = front ++ a :: a :: back

namespace Doubles

variable {a : α} {l l' : List α}

theorem cons (h : Doubles a l l') (x : α) : Doubles a (x :: l) (x :: l') := by
  obtain ⟨front, back, rfl, rfl⟩ := h
  exact ⟨x :: front, back, rfl, rfl⟩

theorem head (a : α) (l : List α) : Doubles a (a :: l) (a :: a :: l) := ⟨[], l, rfl, rfl⟩

variable {r : α → α → Prop} [DecidableRel r]

/-- Another item goes to the same place in both. -/
theorem orderedInsert (h : Doubles a l l') (x : α) :
    Doubles a (l.orderedInsert r x) (l'.orderedInsert r x) := by
  obtain ⟨front, back, rfl, rfl⟩ := h
  induction front with
  | nil =>
    simp only [List.nil_append, List.orderedInsert_cons]
    by_cases hx : r x a
    · simpa only [if_pos hx] using (head a back).cons x
    · simpa only [if_neg hx] using head a (back.orderedInsert r x)
  | cons y front ih =>
    simp only [List.cons_append, List.orderedInsert_cons]
    by_cases hx : r x y
    · have htail : Doubles a (front ++ a :: back) (front ++ a :: a :: back) :=
        ⟨front, back, rfl, rfl⟩
      simpa only [if_pos hx] using (htail.cons y).cons x
    · simpa only [if_neg hx] using ih.cons y

/-- An item that ties with itself is put right in front of its copy. -/
theorem orderedInsert_self (ha : r a a) (l : List α) :
    Doubles a (l.orderedInsert r a) ((l.orderedInsert r a).orderedInsert r a) := by
  induction l with
  | nil => simpa only [List.orderedInsert_nil, List.orderedInsert_cons, if_pos ha] using head a []
  | cons x l ih =>
    simp only [List.orderedInsert_cons]
    by_cases hx : r a x
    · simpa only [if_pos hx, List.orderedInsert_cons, if_pos ha] using head a (x :: l)
    · simpa only [if_neg hx, List.orderedInsert_cons] using ih.cons x

end Doubles

end Sorting

/-- **A file that is listed twice in a row is taken twice in a row**, and the others as before. -/
theorem Doubles.byPath (before after : List SourceFile) (f : SourceFile) :
    Doubles f (byPath (before ++ f :: after)) (byPath (before ++ f :: f :: after)) := by
  have hcons : ∀ (g : SourceFile) files, Bestiary.byPath (g :: files) =
      (Bestiary.byPath files).orderedInsert (fun a b => Text.notAfter a.path b.path = true) g :=
    mergeSort_cons_eq (fun _ _ _ => Text.notAfter_trans) fun a b =>
      Text.notAfter_total a.path b.path
  induction before with
  | nil =>
    rw [List.nil_append, List.nil_append, hcons f (f :: after), hcons f after]
    exact orderedInsert_self (by simpa using Text.notAfter_total f.path f.path) _
  | cons g before ih =>
    rw [List.cons_append, List.cons_append, hcons, hcons]
    exact ih.orderedInsert g

/-! ## Patches -/

namespace Layered

variable {root : String} {l l' : Layered}

/-- What a patch makes of the definitions depends on nothing else that was read before. -/
theorem tables_patch_congr (h : l'.tables = l.tables) (f : SourceFile) :
    (l'.patch root f).tables = (l.patch root f).tables := by
  unfold patch
  cases f.parse with
  | error e => exact h
  | ok t =>
    simp only [h]
    cases l.tables.get? (nameOf root f.path) <;> rfl

theorem tables_foldl_patch_congr (h : l'.tables = l.tables) (files : List SourceFile) :
    (files.foldl (patch root) l').tables = (files.foldl (patch root) l).tables := by
  induction files generalizing l l' with
  | nil => exact h
  | cons f files ih => exact ih (tables_patch_congr h f)

/-- **A patch leaves the definitions as it made them.** -/
theorem tables_patch_patch (l : Layered) (f : SourceFile) :
    ((l.patch root f).patch root f).tables = (l.patch root f).tables := by
  cases hparse : f.parse with
  | error e => simp [patch, hparse]
  | ok t =>
    cases htarget : l.tables.get? (nameOf root f.path) with
    | none => simp [patch, hparse, htarget]
    | some target =>
      have hself := Value.merge_merge_self (.table target) (SourceFile.wellKeyed_of_parse hparse)
      rw [Value.merge_table, Value.merge_table] at hself
      simp [patch, hparse, htarget, Data.table.inj hself]

/-- One file more, right after itself, makes no difference to the definitions. -/
theorem tables_foldl_patch_of_doubles {f : SourceFile} {files files' : List SourceFile}
    (h : Doubles f files files') (l : Layered) :
    (files'.foldl (patch root) l).tables = (files.foldl (patch root) l).tables := by
  obtain ⟨front, back, rfl, rfl⟩ := h
  rw [List.foldl_append, List.foldl_append]
  exact tables_foldl_patch_congr (tables_patch_patch _ f) back

end Layered

/-- Layers with the same definitions are resolved to the same mobs and failures. -/
theorem Resolution.ofLayered_congr {l l' : Layered} (h : l'.tables = l.tables) :
    (ofLayered l').mobs = (ofLayered l).mobs ∧ (ofLayered l').values = (ofLayered l).values ∧
      (ofLayered l').failures = (ofLayered l).failures := by
  have hvalues : l'.values = l.values := by rw [Layered.values, Layered.values, h]
  simp only [ofLayered, hvalues, and_self]

/-- **Patching again changes nothing.** An override that is laid over a value a second time leaves
it as it is, with the order of keys. So a patch that is listed a second time right after itself
changes neither definitions nor mobs nor failures; and base files that are refused are refused as
before. -/
theorem patching_again :
    (∀ b o : Value, o.WellKeyed → Value.merge (Value.merge b o) o = Value.merge b o) ∧
      ∀ (root : String) (s : Sources) (before after : List SourceFile) (f : SourceFile),
        s.patches = before ++ f :: after →
          let s' : Sources := { s with patches := before ++ f :: f :: after }
          (∀ e, resolve root s = .error e ↔ resolve root s' = .error e) ∧
            ∀ r, resolve root s = .ok r → ∃ r', resolve root s' = .ok r' ∧
              r'.mobs = r.mobs ∧ r'.values = r.values ∧ r'.failures = r.failures := by
  refine ⟨fun b o ho => Value.merge_merge_self b ho, fun root s before after f hpatches => ?_⟩
  have hdoubles := Doubles.byPath before after f
  rw [← hpatches] at hdoubles
  intro s'
  unfold resolve layer
  cases readBase root (byPath s.base) with
  | error e => exact ⟨fun _ => .rfl, fun r h => absurd h (by simp)⟩
  | ok tables =>
    refine ⟨fun e => by simp, ?_⟩
    rintro _ ⟨⟩
    exact ⟨_, rfl, Resolution.ofLayered_congr (Layered.tables_foldl_patch_of_doubles hdoubles _)⟩

/-- Of two patches of one mob, the one that is listed twice has the path that comes first. -/
theorem patching_again_moon :
    let file (path text : String) : SourceFile := ⟨path, .text text⟩
    let p := file "mobs/moon.mobpatch" "health = 3\n[limbs]\nleft = 1\n"
    let q := file "moon.mobpatch" "health = 4\n"
    let s : Sources := ⟨[file "mobs/moon.mob" "name = \"moon\"\n"], [], [q, p]⟩
    let s' : Sources := { s with patches := [q, p, p] }
    Value.mothPatch.WellKeyed ∧
      Value.merge (Value.merge Value.moth Value.mothPatch) Value.mothPatch =
        Value.merge Value.moth Value.mothPatch ∧
      s.patches = [q] ++ p :: [] ∧
      ∃ r r', resolve "mobs/" s = .ok r ∧ resolve "mobs/" s' = .ok r' ∧ r'.mobs = r.mobs ∧
        r'.values = r.values ∧ r'.failures = r.failures := by
  intro file p q s s'
  have hkeyed : Value.mothPatch.WellKeyed := by
    simp [Value.mothPatch, Data.WellKeyed, Data.EntriesWellKeyed, Data.natural]
  have hbase : ∀ f ∈ s.base, ∃ t, f.parse = .ok t :=
    List.forall_mem_singleton.mpr ⟨[("name", .text "moon")], by cbv⟩
  obtain ⟨r, hr, -⟩ := exists_resolve "mobs/" hbase
  obtain ⟨r', hr', hsame⟩ := (patching_again.2 "mobs/" s [q] [] p rfl).2 r hr
  exact ⟨hkeyed, patching_again.1 _ _ hkeyed, rfl, r, r', hr, hr', hsame⟩

end Bestiary
