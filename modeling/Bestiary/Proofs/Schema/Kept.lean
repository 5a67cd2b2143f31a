import Bestiary.Proofs.Data.Within
import Bestiary.Proofs.Schema.Reordered

/-!
# What schemas keep

A value that is read comes back with defaults for what was absent, its references brought to names,
and its dictionaries without the reserved key. All else that was in it is still there.

* `Schema.kept` is what a schema keeps of a value.
* `Schema.keeps`: what is kept is within what is read, for every tidy schema.
* `Schema.isExact` says of a schema that it has neither references nor dictionaries; then
  `Schema.kept_of_isExact`: it keeps all.
* `Schema.keptFields_eq_filter`: of the fields of a record only the others matter.
-/

namespace Bestiary

namespace Value

/-- A list of two with a change to each item. -/
def onPair (f g : Value → Value) : Value → Value
  | .list [a, b] => .list [f a, g b]
  | v => v

/-- A table with a change to its entries. -/
def onTable (f : Table Value → Table Value) : Value → Value
  | .table t => .table (f t)
  | v => v

end Value

namespace Schema

open Outcome Value

mutual

/-- What a schema keeps of a value that it accepts. -/
def kept : Schema → Value → Value
  | .mobRef, v => onText (nameOf defaultRoot) v
  | .pair first second, v => onPair (kept first) (kept second) v
  | .list item, v => onItems (kept item) v
  | .dictionary entry, v =>
    onTable (fun t => (t.erase reservedKey).map fun e => (e.1, kept entry e.2)) v
  | .record fields, v => onTable (keptFields fields) v
  | .variants alternatives, v => keptFirst alternatives v
  | _, v => v

/-- What the fields of a record keep of its entries. -/
def keptFields : List (String × Presence × Schema) → Table Value → Table Value
  | [], t => t
  | (key, _, s) :: fields, t => (keptFields fields t).modify key (kept s)

/-- What the first of several schemas that accepts a value keeps of it. -/
def keptFirst : List Schema → Value → Value
  | [], v => v
  | s :: alternatives, v =>
    match s.read v with
    | .accepted _ => kept s v
    | _ => keptFirst alternatives v

end

/-- What is kept of a value is in what it is read as. -/
def Keeps (s : Schema) : Prop :=
  ∀ v w : Value, v.WellKeyed → s.read v = .accepted w → within (s.kept v) w = true

variable {key : String} {presence : Presence} {s : Schema}
  {fields : List (String × Presence × Schema)}

/-! ## Leaves and lists -/

theorem keeps_of_isVerbatim (hread : s.IsVerbatim) (hkept : ∀ v, s.kept v = v) : s.Keeps := by
  intro v w hv hw
  obtain rfl := hread v w hw
  rw [hkept]
  exact within_refl hv

theorem keeps_mobRef : mobRef.Keeps := by
  intro v w _ hw
  obtain ⟨s, rfl⟩ := exists_text_of_accepts_mobRef ⟨w, hw⟩
  obtain rfl := Outcome.accepted.inj hw
  simp [kept, onText, within]

theorem keeps_pair {first second : Schema} (hfirst : first.Keeps) (hsecond : second.Keeps) :
    (pair first second).Keeps := by
  intro v w hv hw
  obtain ⟨a, b, rfl, a', ha, b', hb, rfl⟩ := read_pair_eq_accepted_iff.mp hw
  rw [Data.wellKeyed_list_iff, List.forall_mem_cons, List.forall_mem_singleton] at hv
  simp [kept, onPair, within, withinItems, hfirst a a' hv.1 ha, hsecond b b' hv.2 hb]

theorem keeps_list {item : Schema} (hitem : item.Keeps) : (list item).Keeps := by
  intro v w hv hw
  obtain ⟨items, rfl, items', hitems, rfl⟩ := read_list_eq_accepted_iff.mp hw
  rw [Data.wellKeyed_list_iff] at hv
  rw [kept, onItems, within, withinItems_iff, List.forall₂_map_left_iff]
  have hreads := forall₂_of_readItems hitems
  clear hitems hw
  induction hreads with
  | nil => exact .nil
  | cons hread _ ih =>
    rw [List.forall_mem_cons] at hv
    exact .cons (hitem _ _ hv.1 hread) (ih hv.2)

/-! ## Dictionaries and records -/

/-- What a dictionary reads has nothing under the reserved key. -/
theorem get?_reservedKey_of_readEntries {entry : Value → Outcome Value} {t t' : Table Value}
    (h : readEntries entry t = .accepted t') : t'.get? reservedKey = none := by
  induction t generalizing t' with
  | nil =>
    obtain rfl := Outcome.accepted.inj h
    rfl
  | cons e t ih =>
    simp only [readEntries, map₂_eq_accepted_iff, under_eq_accepted_iff] at h
    obtain ⟨v, -, rest, hrest, rfl⟩ := h
    split
    · exact ih hrest
    · rename_i hk
      rw [Table.get?_cons, if_neg hk, ih hrest]

theorem keeps_dictionary {entry : Schema} (hentry : entry.Keeps) : (dictionary entry).Keeps := by
  intro v w hv hw
  obtain ⟨t, rfl, t', ht, rfl⟩ := read_dictionary_eq_accepted_iff.mp hw
  obtain ⟨hnodup, hentries⟩ := Data.wellKeyed_table_iff.mp hv
  rw [kept, onTable, within_table_iff, List.forall_mem_map]
  rintro ⟨k, a⟩ hmem
  obtain ⟨hmem, hk⟩ := List.mem_filter.mp hmem
  have hread := (readEntries_spec ht).2 k hnodup
  rw [Table.get?_of_mem hnodup hmem] at hread
  obtain ⟨a', ha, hget⟩ := hread
  rw [if_neg (of_decide_eq_true hk)] at hget
  exact ⟨a', hget, hentry a a' (hentries _ hmem) ha⟩

theorem keys_keptFields (fields : List (String × Presence × Schema)) (t : Table Value) :
    (keptFields fields t).keys = t.keys := by
  induction fields with
  | nil => rfl
  | cons field fields ih =>
    rw [keptFields, Table.keys_modify, ih]

theorem get?_keptFields_of_not_mem (h : key ∉ fields.map Prod.fst) (t : Table Value) :
    (keptFields fields t).get? key = t.get? key := by
  induction fields with
  | nil => rfl
  | cons field fields ih =>
    rw [List.map_cons, List.mem_cons, not_or] at h
    rw [keptFields, Table.get?_modify, if_neg (Ne.symm h.1), ih h.2]

/-- Under the key of a field stands what the field keeps. -/
theorem get?_keptFields (hnodup : (fields.map Prod.fst).Nodup)
    (hfield : (key, presence, s) ∈ fields) (t : Table Value) :
    (keptFields fields t).get? key = (t.get? key).map s.kept := by
  induction fields with
  | nil => exact absurd hfield List.not_mem_nil
  | cons field fields ih =>
    rw [List.map_cons, List.nodup_cons] at hnodup
    rcases List.mem_cons.mp hfield with rfl | hrest
    · rw [keptFields, Table.get?_modify, if_pos rfl, get?_keptFields_of_not_mem hnodup.1]
    · have hne : field.1 ≠ key := by
        rintro rfl
        exact hnodup.1 (List.mem_map.mpr ⟨_, hrest, rfl⟩)
      rw [keptFields, Table.get?_modify, if_neg hne, ih hnodup.2 hrest]

/-- What the fields of a record keep is there if it is for each field. -/
theorem within_keptFields {entries u : Table Value} (hnodup : (fields.map Prod.fst).Nodup)
    (hentries : entries.keys.Nodup) (hclosed : ∀ k ∈ entries.keys, k ∈ fields.map Prod.fst)
    (h : ∀ key presence s, (key, presence, s) ∈ fields → ∀ v, entries.get? key = some v →
      ∃ w, u.get? key = some w ∧ within (kept s v) w = true) :
    within (.table (keptFields fields entries)) (.table u) = true := by
  rw [within_table_iff]
  intro e he
  have hkeys := keys_keptFields fields entries
  have hkey : e.1 ∈ entries.keys := hkeys ▸ List.mem_map_of_mem he
  obtain ⟨⟨_, presence, s⟩, hfield, rfl⟩ := List.mem_map.mp (hclosed e.1 hkey)
  have hget := Table.get?_of_mem (hkeys ▸ hentries) he
  rw [get?_keptFields hnodup hfield] at hget
  obtain ⟨v, hv, hkept⟩ := Option.map_eq_some_iff.mp hget
  obtain ⟨w, hw, hwithin⟩ := h _ presence s hfield v hv
  exact ⟨w, hw, hkept ▸ hwithin⟩

theorem keeps_record (hnodup : (fields.map Prod.fst).Nodup)
    (hfields : ∀ f ∈ fields, f.2.2.Keeps) : (record fields).Keeps := by
  intro v w hv hw
  obtain ⟨entries, rfl⟩ := exists_table_of_accepts_record ⟨w, hw⟩
  obtain ⟨t, ht, hclosed, rfl⟩ := read_record_eq_accepted_iff.mp hw
  refine within_keptFields hnodup (Data.wellKeyed_table_iff.mp hv).1 hclosed ?_
  intro key presence s hfield v hget
  have hread := get?_of_readFields hnodup hfield ht
  rw [hget] at hread
  obtain ⟨w, hw, hwget⟩ := hread
  exact ⟨w, hwget, hfields _ hfield v w (hv.get? hget) hw⟩

/-! ## All schemas -/

theorem keeps_variants {alternatives : List Schema} (h : ∀ s ∈ alternatives, s.Keeps) :
    (variants alternatives).Keeps := by
  intro v w hv hw
  rw [read] at hw
  rw [kept]
  induction alternatives with
  | nil => exact absurd hw (by simp [readEach, firstFitting])
  | cons s alternatives ih =>
    rw [List.forall_mem_cons] at h
    rw [readEach, firstFitting_cons_eq_accepted_iff] at hw
    rcases hw with hw | ⟨hrefused, hw⟩
    · rw [keptFirst, hw]
      exact h.1 v w hv hw
    · have hskip : keptFirst (s :: alternatives) v = keptFirst alternatives v := by
        rw [keptFirst]
        cases hread : s.read v with
        | accepted a => exact absurd ⟨a, hread⟩ hrefused
        | _ => rfl
      rw [hskip]
      exact ih h.2 hw

/-- **What a tidy schema keeps of a value is in what it reads.** -/
theorem keeps (hs : s.isTidy = true) : s.Keeps := by
  induction s using Schema.induction with
  | text => exact keeps_of_isVerbatim isVerbatim_text fun _ => rfl
  | number => exact keeps_of_isVerbatim isVerbatim_number fun _ => rfl
  | flag => exact keeps_of_isVerbatim isVerbatim_flag fun _ => rfl
  | natural most => exact keeps_of_isVerbatim (isVerbatim_natural most) fun _ => rfl
  | mobRef => exact keeps_mobRef
  | oneOf names => exact keeps_of_isVerbatim (isVerbatim_oneOf names) fun _ => rfl
  | pair first second hfirst hsecond =>
    rw [isTidy, Bool.and_eq_true] at hs
    exact keeps_pair (hfirst hs.1) (hsecond hs.2)
  | list item hitem => exact keeps_list (hitem (by rwa [isTidy] at hs))
  | dictionary entry hentry => exact keeps_dictionary (hentry (by rwa [isTidy] at hs))
  | record fields ih =>
    obtain ⟨hnodup, hfields⟩ := isTidy_record_iff.mp hs
    exact keeps_record hnodup fun f hf => ih f hf (hfields f hf).2
  | variants alternatives ih =>
    exact keeps_variants fun s hmem => ih s hmem (isTidy_variants_iff.mp hs s hmem)
  | anything => exact keeps_of_isVerbatim isVerbatim_anything fun _ => rfl

/-! ## Schemas that keep all -/

mutual

/-- A schema without references and dictionaries. -/
def isExact : Schema → Bool
  | .mobRef => false
  | .dictionary _ => false
  | .pair first second => isExact first && isExact second
  | .list item => isExact item
  | .record fields => areExactFields fields
  | .variants alternatives => areExact alternatives
  | _ => true

/-- `isExact` of every field. -/
def areExactFields : List (String × Presence × Schema) → Bool
  | [] => true
  | (_, _, s) :: fields => isExact s && areExactFields fields

/-- `isExact` of every schema. -/
def areExact : List Schema → Bool
  | [] => true
  | s :: alternatives => isExact s && areExact alternatives

end

/-- A field that keeps all does not matter. -/
theorem keptFields_cons_of_kept_eq (h : s.kept = id) (t : Table Value) :
    keptFields ((key, presence, s) :: fields) t = keptFields fields t := by
  rw [keptFields, h]
  exact Table.modify_eq_self_iff.mpr fun _ _ => rfl

/-- **A schema without references and dictionaries keeps all.** -/
theorem kept_of_isExact (hs : s.isExact = true) : s.kept = id := by
  induction s using Schema.induction with
  | mobRef => exact absurd hs (by simp [isExact])
  | dictionary entry => exact absurd hs (by simp [isExact])
  | pair first second hfirst hsecond =>
    rw [isExact, Bool.and_eq_true] at hs
    funext v
    rw [kept, hfirst hs.1, hsecond hs.2]
    unfold onPair
    split <;> rfl
  | list item hitem =>
    funext v
    rw [kept, hitem (by rwa [isExact] at hs), onItems_id, id]
  | record fields ih =>
    rw [isExact] at hs
    have hkept : ∀ t, keptFields fields t = t := by
      intro t
      induction fields with
      | nil => rfl
      | cons field fields ihfields =>
        rw [areExactFields, Bool.and_eq_true] at hs
        rw [List.forall_mem_cons] at ih
        rw [keptFields_cons_of_kept_eq (ih.1 hs.1), ihfields ih.2 hs.2]
    funext v
    cases v <;> simp [kept, onTable, hkept]
  | variants alternatives ih =>
    rw [isExact] at hs
    funext v
    rw [kept]
    induction alternatives with
    | nil => rfl
    | cons s alternatives ihalternatives =>
      rw [areExact, Bool.and_eq_true] at hs
      rw [List.forall_mem_cons] at ih
      rw [keptFirst, ih.1 hs.1, ihalternatives ih.2 hs.2]
      split <;> rfl
  | _ =>
    funext v
    rfl

/-- **Of the fields of a record only those matter that do not keep all.** -/
theorem keptFields_eq_filter (fields : List (String × Presence × Schema)) (t : Table Value) :
    keptFields fields t = keptFields (fields.filter fun f => !f.2.2.isExact) t := by
  induction fields with
  | nil => rfl
  | cons field fields ih =>
    cases h : field.2.2.isExact with
    | true =>
      rw [List.filter_cons_of_neg (by simp [h]), ← ih]
      exact keptFields_cons_of_kept_eq (kept_of_isExact h) t
    | false => rw [List.filter_cons_of_pos (by simp [h]), keptFields, keptFields, ih]

/-- A record of which one field alone does not keep all. -/
theorem kept_record_of_filter_eq
    (h : fields.filter (fun f => !f.2.2.isExact) = [(key, presence, s)]) :
    (record fields).kept = onField key s.kept := by
  funext v
  rw [kept]
  cases v with
  | table t => rw [onTable, keptFields_eq_filter, h, onField, keptFields, keptFields]
  | _ => rfl

theorem kept_dictionary_of_isExact {entry : Schema} (h : entry.isExact = true) :
    (dictionary entry).kept = onTable fun t => t.erase reservedKey := by
  funext v
  rw [kept, kept_of_isExact h]
  cases v with
  | table t => simp [onTable]
  | _ => rfl

end Schema

end Bestiary
