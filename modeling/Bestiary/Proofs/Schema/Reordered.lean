import Bestiary.Proofs.Data.Reordered
import Bestiary.Proofs.Schema.Reread

/-!
# Schemas and the order of keys

The order of keys decides neither whether a schema accepts a value nor which variant it is taken
for, and what comes of the parts is put where the schema has them: of a value with its keys in two
orders, a schema reads the same.

* `Schema.isTidy` says of a schema that it can be read in this way: no record lists a field twice.
* `Schema.KeepsSame` is the property, `Schema.keepsSame` says that tidy schemas have it.
-/

namespace Bestiary

/-- A default has no key twice: it is the same as itself. -/
def Presence.isTidy : Presence → Bool
  | .defaulted d => Value.same d d
  | _ => true

namespace Schema

open Outcome Value

mutual

/-- No record in the schema lists a field twice, and no default has a key twice. -/
def isTidy : Schema → Bool
  | .pair first second => isTidy first && isTidy second
  | .list item => isTidy item
  | .dictionary entry => isTidy entry
  | .record fields => decide (fields.map Prod.fst).Nodup && areTidyFields fields
  | .variants alternatives => areTidy alternatives
  | _ => true

/-- `isTidy` of every field. -/
def areTidyFields : List (String × Presence × Schema) → Bool
  | [] => true
  | (_, presence, s) :: fields =>
    presence.isTidy && isTidy s && areTidyFields fields

/-- `isTidy` of every schema. -/
def areTidy : List Schema → Bool
  | [] => true
  | s :: alternatives => isTidy s && areTidy alternatives

end

theorem same_default_of_isTidy {presence : Presence} (h : presence.isTidy = true) (d : Value)
    (hd : presence = .defaulted d) : same d d = true := by
  subst hd
  exact h

theorem isTidy_record_iff {fields : List (String × Presence × Schema)} :
    (record fields).isTidy = true ↔ (fields.map Prod.fst).Nodup ∧
      ∀ f ∈ fields, f.2.1.isTidy = true ∧ f.2.2.isTidy = true := by
  have hfields : areTidyFields fields = true ↔
      ∀ f ∈ fields, f.2.1.isTidy = true ∧ f.2.2.isTidy = true := by
    induction fields with
    | nil => simp [areTidyFields]
    | cons f fields ih =>
      obtain ⟨key, presence, s⟩ := f
      rw [areTidyFields, Bool.and_eq_true, Bool.and_eq_true, ih, List.forall_mem_cons]
  rw [isTidy, Bool.and_eq_true, decide_eq_true_iff, hfields]

theorem isTidy_variants_iff {alternatives : List Schema} :
    (variants alternatives).isTidy = true ↔ ∀ s ∈ alternatives, s.isTidy = true := by
  rw [isTidy]
  induction alternatives with
  | nil => simp [areTidy]
  | cons s alternatives ih => rw [areTidy, Bool.and_eq_true, ih, List.forall_mem_cons]

/-- An accepted value is accepted with its keys in any order, and read as what is the same. -/
def KeepsSame (s : Schema) : Prop :=
  ∀ v w v' : Value, Reordered v w → s.read v = .accepted v' →
    ∃ w', s.read w = .accepted w' ∧ same v' w' = true

/-! ## Leaves and lists -/

/-- A schema for leaves, which gives leaves, looks at no order of keys. -/
theorem keepsSame_of_leaf {s : Schema} {f : Value → Value} (hreread : s.RereadsAs f)
    (hleaf : ∀ v, s.Accepts v → v.list? = none ∧ v.table? = none) : s.KeepsSame := by
  intro v w v' h hv
  obtain ⟨hlist, htable⟩ := hleaf v ⟨v', hv⟩
  obtain ⟨hlist', htable'⟩ := hleaf v' ⟨f v', hreread v v' hv⟩
  obtain rfl := h.eq_of_leaf hlist htable
  refine ⟨v', hv, same_refl ?_⟩
  cases v' with
  | list items => exact absurd hlist' (by simp [Data.list?])
  | table t => exact absurd htable' (by simp [Data.table?])
  | _ => trivial

theorem keepsSame_pair {first second : Schema} (hfirst : first.KeepsSame)
    (hsecond : second.KeepsSame) : (pair first second).KeepsSame := by
  intro v w v' hvw h
  obtain ⟨a, b, rfl, a', ha, b', hb, rfl⟩ := read_pair_eq_accepted_iff.mp h
  obtain ⟨items, rfl, hitems⟩ := hvw.exists_list
  obtain _ | ⟨hac, _ | ⟨hbd, _ | _⟩⟩ := hitems
  obtain ⟨c', hc, hac'⟩ := hfirst _ _ a' hac ha
  obtain ⟨d', hd, hbd'⟩ := hsecond _ _ b' hbd hb
  refine ⟨.list [c', d'], ?_, by simp [same, sameItems, hac', hbd']⟩
  exact read_pair_eq_accepted_iff.mpr ⟨_, _, rfl, c', hc, d', hd, rfl⟩

/-- Items with their keys in another order are read as the same items. -/
theorem exists_readItems {item : Schema} (hitem : item.KeepsSame) {items items' read : List Value}
    (hitems : List.Forall₂ Reordered items items') {i : Nat}
    (h : readItems item.read i items = .accepted read) :
    ∃ read', readItems item.read i items' = .accepted read' ∧
      List.Forall₂ (fun a b => same a b = true) read read' := by
  induction hitems generalizing i read with
  | nil =>
    obtain rfl := Outcome.accepted.inj h
    exact ⟨[], rfl, .nil⟩
  | @cons a b _ _ hab _ ih =>
    simp only [readItems, map₂_eq_accepted_iff, under_eq_accepted_iff] at h
    obtain ⟨a', ha, rest, hrest, rfl⟩ := h
    obtain ⟨b', hb, hab'⟩ := hitem a b a' hab ha
    obtain ⟨rest', hrest', hsames⟩ := ih hrest
    refine ⟨b' :: rest', ?_, .cons hab' hsames⟩
    rw [readItems, hb, hrest']
    rfl

theorem keepsSame_list {item : Schema} (hitem : item.KeepsSame) : (list item).KeepsSame := by
  intro v w v' hvw h
  obtain ⟨items, rfl, read, hread, rfl⟩ := read_list_eq_accepted_iff.mp h
  obtain ⟨items', rfl, hitems⟩ := hvw.exists_list
  obtain ⟨read', hread', hsames⟩ := exists_readItems hitem hitems hread
  refine ⟨.list read', read_list_eq_accepted_iff.mpr ⟨items', rfl, read', hread', rfl⟩, ?_⟩
  rwa [same, sameItems_iff]

/-! ## Dictionaries -/

/-- What a dictionary is read as: its entries but the reserved one, in their order. -/
theorem readEntries_spec {entry : Value → Outcome Value} {t t' : Table Value}
    (h : readEntries entry t = .accepted t') :
    t'.keys.Sublist t.keys ∧ ∀ k, t.keys.Nodup →
      match t.get? k with
      | some v => ∃ v', entry v = .accepted v' ∧
          t'.get? k = if k = reservedKey then none else some v'
      | none => t'.get? k = none := by
  induction t generalizing t' with
  | nil =>
    obtain rfl := Outcome.accepted.inj h
    exact ⟨.slnil, fun _ _ => rfl⟩
  | cons e t ih =>
    obtain ⟨key, v⟩ := e
    simp only [readEntries, map₂_eq_accepted_iff, under_eq_accepted_iff] at h
    obtain ⟨v', hv, rest, hrest, rfl⟩ := h
    obtain ⟨hsub, hget⟩ := ih hrest
    constructor
    · split
      · exact hsub.cons key
      · exact hsub.cons_cons key
    · intro k hnodup
      rw [Table.keys_cons, List.nodup_cons] at hnodup
      have hrestget := hget k hnodup.2
      rw [Table.get?_cons]
      by_cases hk : key = k
      · subst hk
        rw [Table.get?_eq_none_iff.mpr hnodup.1] at hrestget
        rw [if_pos rfl]
        refine ⟨v', hv, ?_⟩
        split
        · exact hrestget
        · rw [Table.get?_cons, if_pos rfl]
      · have hskip : Table.get? (if key = reservedKey then rest else (key, v') :: rest) k =
            Table.get? rest k := by
          split
          · rfl
          · rw [Table.get?_cons, if_neg hk]
        rw [if_neg hk, hskip]
        exact hrestget

theorem keepsSame_dictionary {entry : Schema} (hentry : entry.KeepsSame) :
    (dictionary entry).KeepsSame := by
  intro v w v' hvw h
  obtain ⟨w', hw'⟩ := blind (dictionary entry) v w hvw.keyed hvw.keyed' hvw.symm.same ⟨v', h⟩
  refine ⟨w', hw', ?_⟩
  obtain ⟨t, rfl, t', ht', rfl⟩ := read_dictionary_eq_accepted_iff.mp h
  obtain ⟨u, rfl, u', hu', rfl⟩ := read_dictionary_eq_accepted_iff.mp hw'
  obtain ⟨hsub, hget⟩ := readEntries_spec ht'
  obtain ⟨hsub', hget'⟩ := readEntries_spec hu'
  rw [same_table_iff_agree (hvw.nodup.sublist hsub) (hvw.symm.nodup.sublist hsub')]
  intro key
  have hread := hget key hvw.nodup
  have hread' := hget' key hvw.symm.nodup
  obtain ⟨ha, hb⟩ | ⟨a, b, ha, hb, hab⟩ := hvw.get? key
  · rw [ha] at hread
    rw [hb] at hread'
    rw [hread, hread']
    rfl
  · rw [ha] at hread
    rw [hb] at hread'
    obtain ⟨a', hreada, hkept⟩ := hread
    obtain ⟨b', hreadb, hkept'⟩ := hread'
    obtain ⟨_, hb', hab'⟩ := hentry a b a' hab hreada
    obtain rfl := Outcome.accepted.inj (hb'.symm.trans hreadb)
    rw [hkept, hkept']
    split
    · rfl
    · exact hab'

/-! ## Records -/

/-- A record is read as a table with no key twice. -/
theorem keys_sublist_of_readFields {fields : List (String × Presence × Schema)}
    {entries t : Table Value} (h : readFields fields entries = .accepted t) :
    t.keys.Sublist (fields.map Prod.fst) := by
  induction fields generalizing t with
  | nil =>
    obtain rfl := Outcome.accepted.inj h
    exact .slnil
  | cons field fields ih =>
    obtain ⟨key, presence, s⟩ := field
    obtain ⟨rest, hrest, ⟨w, -, rfl⟩ | ⟨-, rfl⟩⟩ := exists_of_readFields_cons h
    · exact (ih hrest).cons_cons key
    · exact (ih hrest).cons key

/-- The fields of a record are read as the same from entries in any order. -/
theorem exists_readFields {fields : List (String × Presence × Schema)}
    (hfields : ∀ f ∈ fields, f.2.2.KeepsSame)
    (hdefaults : ∀ f ∈ fields, ∀ d, f.2.1 = .defaulted d → same d d = true)
    {entries entries' t : Table Value} (hentries : Reordered (.table entries) (.table entries'))
    (h : readFields fields entries = .accepted t) :
    ∃ u, readFields fields entries' = .accepted u ∧
      t.Paired (fun v w => same v w = true) u := by
  induction fields generalizing t with
  | nil =>
    obtain rfl := Outcome.accepted.inj h
    exact ⟨[], rfl, .nil⟩
  | cons field fields ih =>
    obtain ⟨key, presence, s⟩ := field
    rw [List.forall_mem_cons] at hfields hdefaults
    rw [readFields, map₂_eq_accepted_iff] at h
    obtain ⟨part, hpart, rest, hrest, rfl⟩ := h
    obtain ⟨rest', hrest', hpaired⟩ := ih hfields.2 hdefaults.2 hrest
    rw [readFields, hrest']
    obtain ⟨hnone, hnone'⟩ | ⟨v, w, hget, hget', hvw⟩ := hentries.get? key
    · simp only [hnone] at hpart
      simp only [hnone']
      cases presence with
      | required => exact absurd hpart (by simp [readAbsent])
      | optional =>
        obtain rfl := Outcome.accepted.inj hpart
        exact ⟨rest', rfl, hpaired⟩
      | defaulted d =>
        obtain rfl := Outcome.accepted.inj hpart
        exact ⟨(key, d) :: rest', rfl, .cons ⟨rfl, hdefaults.1 d rfl⟩ hpaired⟩
    · simp only [hget, map_eq_accepted_iff, under_eq_accepted_iff] at hpart
      obtain ⟨v', hv', rfl⟩ := hpart
      obtain ⟨w', hw', hsame⟩ := hfields.1 v w v' hvw hv'
      simp only [hget', hw']
      exact ⟨(key, w') :: rest', rfl, .cons ⟨rfl, hsame⟩ hpaired⟩

theorem keepsSame_record {fields : List (String × Presence × Schema)}
    (hnodup : (fields.map Prod.fst).Nodup) (hfields : ∀ f ∈ fields, f.2.2.KeepsSame)
    (hdefaults : ∀ f ∈ fields, ∀ d, f.2.1 = .defaulted d → same d d = true) :
    (record fields).KeepsSame := by
  intro v w v' hvw h
  cases v with
  | table entries =>
    obtain ⟨entries', rfl⟩ := hvw.exists_table
    obtain ⟨t, ht, hclosed, rfl⟩ := read_record_eq_accepted_iff.mp h
    obtain ⟨u, hu, hpaired⟩ := exists_readFields hfields hdefaults hvw ht
    refine ⟨.table u, read_record_eq_accepted_iff.mpr ⟨u, hu, hvw.closed hclosed, rfl⟩, ?_⟩
    rw [same_table_iff_agree (hnodup.sublist (keys_sublist_of_readFields ht))
      (hnodup.sublist (keys_sublist_of_readFields hu))]
    exact fun key => agree_iff_rel.mpr (hpaired.get? key)
  | _ => exact absurd h (by simp [read, wrongKind])

/-! ## Variants -/

/-- A value is taken for one variant, with its keys in any order. -/
theorem keepsSame_variants {alternatives : List Schema} (h : ∀ s ∈ alternatives, s.KeepsSame) :
    (variants alternatives).KeepsSame := by
  intro v w v' hvw hread
  rw [read] at hread
  simp only [read]
  induction alternatives with
  | nil => exact absurd hread (by simp [readEach, firstFitting])
  | cons s alternatives ih =>
    rw [List.forall_mem_cons] at h
    rw [readEach, firstFitting_cons_eq_accepted_iff] at hread
    simp only [readEach, firstFitting_cons_eq_accepted_iff]
    rcases hread with hread | ⟨hrefused, hread⟩
    · obtain ⟨w', hw', hsame⟩ := h.1 v w v' hvw hread
      exact ⟨w', .inl hw', hsame⟩
    · obtain ⟨w', hw', hsame⟩ := ih h.2 hread
      exact ⟨w', .inr ⟨mt (blind s w v hvw.keyed' hvw.keyed hvw.same) hrefused, hw'⟩, hsame⟩

/-! ## All schemas -/

/-- **Tidy schemas read the same from values with their keys in any order.** -/
theorem keepsSame {s : Schema} (hs : s.isTidy = true) : s.KeepsSame := by
  induction s using Schema.induction with
  | text =>
    refine keepsSame_of_leaf isStable_text fun _ h => ?_
    obtain ⟨s, rfl⟩ := accepts_text_iff.mp h
    exact ⟨rfl, rfl⟩
  | number =>
    refine keepsSame_of_leaf isStable_number fun _ h => ?_
    obtain ⟨n, rfl⟩ := accepts_number_iff.mp h
    exact ⟨rfl, rfl⟩
  | flag =>
    refine keepsSame_of_leaf isStable_flag fun _ h => ?_
    obtain ⟨b, rfl⟩ := accepts_flag_iff.mp h
    exact ⟨rfl, rfl⟩
  | natural most =>
    refine keepsSame_of_leaf (isStable_natural most) fun _ h => ?_
    obtain ⟨n, rfl⟩ := exists_number_of_accepts_natural h
    exact ⟨rfl, rfl⟩
  | mobRef =>
    refine keepsSame_of_leaf rereadsAs_mobRef fun _ h => ?_
    obtain ⟨s, rfl⟩ := exists_text_of_accepts_mobRef h
    exact ⟨rfl, rfl⟩
  | oneOf names =>
    refine keepsSame_of_leaf (isStable_oneOf names) fun _ h => ?_
    obtain ⟨s, rfl⟩ := exists_text_of_accepts_oneOf h
    exact ⟨rfl, rfl⟩
  | pair first second hfirst hsecond =>
    rw [isTidy, Bool.and_eq_true] at hs
    exact keepsSame_pair (hfirst hs.1) (hsecond hs.2)
  | list item hitem => exact keepsSame_list (hitem (by rwa [isTidy] at hs))
  | dictionary entry hentry => exact keepsSame_dictionary (hentry (by rwa [isTidy] at hs))
  | record fields ih =>
    obtain ⟨hnodup, hfields⟩ := isTidy_record_iff.mp hs
    exact keepsSame_record hnodup (fun f hf => ih f hf (hfields f hf).2) fun f hf =>
      same_default_of_isTidy (hfields f hf).1
  | variants alternatives ih =>
    exact keepsSame_variants fun s hmem => ih s hmem (isTidy_variants_iff.mp hs s hmem)
  | anything =>
    intro v w v' hvw h
    rw [read] at h
    obtain rfl := Outcome.accepted.inj h
    exact ⟨w, by rw [read], hvw.same⟩

end Schema

end Bestiary
