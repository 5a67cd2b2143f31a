import Bestiary.Proofs.Schema.Same

/-!
# Reading again what was read

What a schema reads from a value is a value of the same shape, with defaults for what was absent.
Reading that by the schema again gives it back, unless the schema holds references: those are
brought to names once more.

* `Schema.RereadsAs` says what the second reading makes of the first, `Schema.IsStable` that it
  changes nothing.
* `Schema.isStable_variants` and `Schema.isStable_variants_of_nodup`: of variants that are told
  apart, the same is taken again.
* `Schema.rereadsAs_record` and `Schema.isStable_record`: a record is read again field by field,
  with the defaults of the first reading as values of their own.
-/

namespace Bestiary

namespace Outcome

variable {α β γ : Type}

theorem map_eq_accepted_iff {f : α → β} {o : Outcome α} {b : β} :
    o.map f = .accepted b ↔ ∃ a, o = .accepted a ∧ f a = b := by
  cases o <;> simp [map]

theorem map₂_eq_accepted_iff {f : α → β → γ} {o : Outcome α} {p : Outcome β} {c : γ} :
    map₂ f o p = .accepted c ↔ ∃ a, o = .accepted a ∧ ∃ b, p = .accepted b ∧ f a b = c := by
  cases o <;> cases p <;> simp [map₂, map]

theorem under_eq_accepted_iff {step : Step} {o : Outcome α} {a : α} :
    o.under step = .accepted a ↔ o = .accepted a := by
  cases o <;> simp [under]

theorem toExcept_eq_ok_iff {o : Outcome α} {a : α} : o.toExcept = .ok a ↔ o = .accepted a := by
  cases o <;> simp [toExcept]

end Outcome

namespace Value

/-! ## Changes inside a value -/

/-- A text with `f` done to it. -/
def onText (f : String → String) : Value → Value
  | .text s => .text (f s)
  | v => v

/-- A list with `f` done to each item. -/
def onItems (f : Value → Value) : Value → Value
  | .list items => .list (items.map f)
  | v => v

/-- A table with `f` done to what is under a key. -/
def onField (key : String) (f : Value → Value) : Value → Value
  | .table t => .table (Table.modify t key f)
  | v => v

theorem onItems_id (v : Value) : onItems id v = v := by
  cases v <;> simp [onItems]

theorem onField_id (key : String) (v : Value) : onField key id v = v := by
  cases v with
  | table t =>
    rw [onField, Table.modify_eq_self_iff (f := id) |>.mpr fun _ _ => rfl]
  | _ => rfl

end Value

namespace Schema

open Outcome Value

/-- What the schema has read it reads again, with `f` done to it. -/
def RereadsAs (s : Schema) (f : Value → Value) : Prop :=
  ∀ v w, s.read v = .accepted w → s.read w = .accepted (f w)

/-- What the schema has read it reads again as it is. -/
abbrev IsStable (s : Schema) : Prop := s.RereadsAs id

variable {f : Value → Value}

/-! ## Leaves -/

/-- The schema takes values as they are. -/
def IsVerbatim (s : Schema) : Prop := ∀ v w, s.read v = .accepted w → w = v

theorem IsVerbatim.isStable {s : Schema} (h : s.IsVerbatim) : s.IsStable := by
  intro v w hw
  obtain rfl := h v w hw
  exact hw

theorem isVerbatim_text : text.IsVerbatim := by
  intro v w h
  cases v <;> simp_all [read, wrongKind]

theorem isVerbatim_number : number.IsVerbatim := by
  intro v w h
  cases v <;> simp_all [read, wrongKind]

theorem isVerbatim_flag : flag.IsVerbatim := by
  intro v w h
  cases v <;> simp_all [read, wrongKind]

theorem isVerbatim_anything : anything.IsVerbatim := by
  intro v w h
  simp_all [read]

theorem isVerbatim_natural (most : Option Nat) : (natural most).IsVerbatim := by
  intro v w h
  cases v with
  | number n =>
    cases most with
    | none =>
      simp only [read, readNatural] at h
      split_ifs at h
      exact (Outcome.accepted.inj h).symm
    | some most =>
      simp only [read, readNatural] at h
      split_ifs at h
      exact (Outcome.accepted.inj h).symm
  | _ => exact absurd h (by simp [read, readNatural, wrongKind])

theorem isVerbatim_oneOf (names : List String) : (oneOf names).IsVerbatim := by
  intro v w h
  cases v with
  | text s =>
    simp only [read, readOneOf] at h
    split_ifs at h
    exact (Outcome.accepted.inj h).symm
  | _ => exact absurd h (by simp [read, readOneOf, wrongKind])

theorem isStable_text : text.IsStable := isVerbatim_text.isStable

theorem isStable_number : number.IsStable := isVerbatim_number.isStable

theorem isStable_flag : flag.IsStable := isVerbatim_flag.isStable

theorem isStable_anything : anything.IsStable := isVerbatim_anything.isStable

theorem isStable_natural (most : Option Nat) : (natural most).IsStable :=
  (isVerbatim_natural most).isStable

theorem isStable_oneOf (names : List String) : (oneOf names).IsStable :=
  (isVerbatim_oneOf names).isStable

/-- A reference is brought to its name each time that it is read. -/
theorem rereadsAs_mobRef : mobRef.RereadsAs (onText (nameOf defaultRoot)) := by
  intro v w h
  cases v with
  | text s =>
    obtain rfl := Outcome.accepted.inj h
    rfl
  | _ => exact absurd h (by simp [read, wrongKind])

/-! ## Lists and tables -/

/-- What a pair is read as: each item by its own schema. -/
theorem read_pair_eq_accepted_iff {first second : Schema} {v w : Value} :
    (pair first second).read v = .accepted w ↔ ∃ a b, v = .list [a, b] ∧
      ∃ a', first.read a = .accepted a' ∧ ∃ b', second.read b = .accepted b' ∧
        w = .list [a', b'] := by
  constructor
  · intro h
    obtain ⟨a, b, rfl, -, -⟩ := accepts_pair_iff.mp ⟨w, h⟩
    simp only [read, readPair, map₂_eq_accepted_iff, under_eq_accepted_iff] at h
    obtain ⟨-, -, items, ⟨a', ha, b', hb, rfl⟩, rfl⟩ := h
    exact ⟨a, b, rfl, a', ha, b', hb, rfl⟩
  · rintro ⟨a, b, rfl, a', ha, b', hb, rfl⟩
    rw [read, readPair, ha, hb]
    rfl

theorem read_list_eq_accepted_iff {item : Schema} {v w : Value} :
    (list item).read v = .accepted w ↔ ∃ items, v = .list items ∧
      ∃ items', readItems item.read 0 items = .accepted items' ∧ w = .list items' := by
  cases v with
  | list items => simp [read, map_eq_accepted_iff, @eq_comm _ w]
  | _ => simp [read, wrongKind]

theorem read_dictionary_eq_accepted_iff {entry : Schema} {v w : Value} :
    (dictionary entry).read v = .accepted w ↔ ∃ t, v = .table t ∧
      ∃ t', readEntries entry.read t = .accepted t' ∧ w = .table t' := by
  cases v with
  | table t => simp [read, map_eq_accepted_iff, @eq_comm _ w]
  | _ => simp [read, wrongKind]

theorem isStable_pair {first second : Schema} (hfirst : first.IsStable)
    (hsecond : second.IsStable) : (pair first second).IsStable := by
  intro v w h
  obtain ⟨a, b, rfl, a', ha, b', hb, rfl⟩ := read_pair_eq_accepted_iff.mp h
  exact read_pair_eq_accepted_iff.mpr
    ⟨a', b', rfl, a', hfirst a a' ha, b', hsecond b b' hb, rfl⟩

theorem readItems_again {item : Schema} (h : item.RereadsAs f) {i j : Nat}
    {items items' : List Value} (hitems : readItems item.read i items = .accepted items') :
    readItems item.read j items' = .accepted (items'.map f) := by
  induction items generalizing i j items' with
  | nil =>
    obtain rfl := Outcome.accepted.inj hitems
    rfl
  | cons a items ih =>
    simp only [readItems, map₂_eq_accepted_iff, under_eq_accepted_iff] at hitems
    obtain ⟨a', ha, rest, hrest, rfl⟩ := hitems
    rw [readItems, h a a' ha, ih hrest]
    rfl

/-- A list is read item by item. -/
theorem forall₂_of_readItems {item : Value → Outcome Value} {i : Nat} {items items' : List Value}
    (h : readItems item i items = .accepted items') :
    List.Forall₂ (fun v w => item v = .accepted w) items items' := by
  induction items generalizing i items' with
  | nil =>
    obtain rfl := Outcome.accepted.inj h
    exact .nil
  | cons v items ih =>
    simp only [readItems, map₂_eq_accepted_iff, under_eq_accepted_iff] at h
    obtain ⟨w, hw, rest, hrest, rfl⟩ := h
    exact .cons hw (ih hrest)

/-- A list is read again item by item. -/
theorem rereadsAs_list {item : Schema} (h : item.RereadsAs f) :
    (list item).RereadsAs (onItems f) := by
  intro v w hw
  obtain ⟨items, rfl, items', hitems, rfl⟩ := read_list_eq_accepted_iff.mp hw
  exact read_list_eq_accepted_iff.mpr ⟨items', rfl, _, readItems_again h hitems, rfl⟩

theorem isStable_list {item : Schema} (h : item.IsStable) : (list item).IsStable := by
  intro v w hw
  rw [rereadsAs_list h v w hw, onItems_id, id]

/-- The entry that a dictionary never keeps is gone after the first reading. -/
theorem readEntries_again {entry : Schema} (h : entry.IsStable) {t t' : Table Value}
    (ht : readEntries entry.read t = .accepted t') :
    readEntries entry.read t' = .accepted t' := by
  induction t generalizing t' with
  | nil =>
    obtain rfl := Outcome.accepted.inj ht
    rfl
  | cons e t ih =>
    obtain ⟨k, v⟩ := e
    simp only [readEntries, map₂_eq_accepted_iff, under_eq_accepted_iff] at ht
    obtain ⟨v', hv, rest, hrest, rfl⟩ := ht
    split
    · exact ih hrest
    · rename_i hk
      rw [readEntries, h v v' hv, ih hrest]
      simp [under, map₂, map, hk]

theorem isStable_dictionary {entry : Schema} (h : entry.IsStable) :
    (dictionary entry).IsStable := by
  intro v w hw
  obtain ⟨t, rfl, t', ht, rfl⟩ := read_dictionary_eq_accepted_iff.mp hw
  exact read_dictionary_eq_accepted_iff.mpr ⟨t', rfl, t', readEntries_again h ht, rfl⟩

/-! ## Variants -/

/-- The first outcome counts if it was accepted, else the first of the others. -/
theorem firstFitting_cons_eq_accepted_iff {o : Outcome Value} {outcomes : List (Outcome Value)}
    {w : Value} :
    firstFitting (o :: outcomes) = .accepted w ↔
      o = .accepted w ∨ ¬o.IsAccepted ∧ firstFitting outcomes = .accepted w := by
  cases o with
  | accepted a => simp [firstFitting, isAccepted_accepted]
  | refused issue => simp [firstFitting, not_isAccepted_refused]
  | flawed issue =>
    rw [firstFitting]
    cases firstFitting outcomes <;> simp [not_isAccepted_flawed]

theorem firstFitting_again {alternatives : List Schema} (h : ∀ s ∈ alternatives, s.IsStable)
    (hapart : alternatives.Pairwise fun s s' => ∀ v w, s'.read v = .accepted w → ¬s.Accepts w)
    {v w : Value} (hw : firstFitting (readEach alternatives v) = .accepted w) :
    firstFitting (readEach alternatives w) = .accepted w ∧
      ∃ s ∈ alternatives, s.read v = .accepted w := by
  induction alternatives with
  | nil => exact absurd hw (by simp [readEach, firstFitting])
  | cons s alternatives ih =>
    rw [List.forall_mem_cons] at h
    rw [List.pairwise_cons] at hapart
    rw [readEach, firstFitting_cons_eq_accepted_iff] at hw
    rw [readEach, firstFitting_cons_eq_accepted_iff]
    rcases hw with hw | ⟨-, hw⟩
    · exact ⟨.inl (h.1 v w hw), s, List.mem_cons_self, hw⟩
    · obtain ⟨hagain, s', hs', hread⟩ := ih h.2 hapart.2 hw
      exact ⟨.inr ⟨hapart.1 s' hs' v w hread, hagain⟩, s', List.mem_cons_of_mem _ hs', hread⟩

/-- **Variants are stable** if no variant takes what a later one has read. -/
theorem isStable_variants {alternatives : List Schema} (h : ∀ s ∈ alternatives, s.IsStable)
    (hapart : alternatives.Pairwise fun s s' => ∀ v w, s'.read v = .accepted w → ¬s.Accepts w) :
    (variants alternatives).IsStable := by
  intro v w hw
  rw [read] at hw ⊢
  exact (firstFitting_again h hapart hw).1

/-! ## Records -/

/-- What a field of a record may be read as: what its schema reads, or its default. -/
def FieldGives (field : String × Presence × Schema) (w : Value) : Prop :=
  (∃ v, field.2.2.read v = .accepted w) ∨ field.2.1 = .defaulted w

/-- What a field gives its schema reads again, with `f` done to it. A default is read for the first
time then: it must pass the check of its own field. -/
def FieldRereadsAs (field : String × Presence × Schema) (f : Value → Value) : Prop :=
  ∀ w, FieldGives field w → field.2.2.read w = .accepted (f w)

/-- What a field gives its schema reads again as it is. -/
abbrev FieldIsStable (field : String × Presence × Schema) : Prop := FieldRereadsAs field id

variable {key : String} {presence : Presence} {s : Schema}
  {fields : List (String × Presence × Schema)} {entries t u : Table Value}

theorem fieldRereadsAs_required (h : s.RereadsAs f) : FieldRereadsAs (key, .required, s) f := by
  rintro w (⟨v, hv⟩ | hw)
  · exact h v w hv
  · exact absurd hw (by simp)

theorem fieldRereadsAs_optional (h : s.RereadsAs f) : FieldRereadsAs (key, .optional, s) f := by
  rintro w (⟨v, hv⟩ | hw)
  · exact h v w hv
  · exact absurd hw (by simp)

theorem fieldRereadsAs_defaulted (h : s.RereadsAs f) {d : Value} (hd : s.read d = .accepted (f d)) :
    FieldRereadsAs (key, .defaulted d, s) f := by
  rintro w (⟨v, hv⟩ | hw)
  · exact h v w hv
  · obtain rfl := Presence.defaulted.inj hw
    exact hd

/-- The field that changes is looked at by itself, the others are read again as they are. -/
theorem fieldRereadsAs_of_forall (hnodup : (fields.map Prod.fst).Nodup)
    (hmem : (key, presence, s) ∈ fields) (hkey : FieldRereadsAs (key, presence, s) f)
    (hothers : fields.Forall fun field => field.1 = key ∨ FieldIsStable field) :
    ∀ field ∈ fields, FieldRereadsAs field (if field.1 = key then f else id) := by
  intro field hfield
  by_cases h : field.1 = key
  · obtain rfl := List.inj_on_of_nodup_map hnodup hfield hmem h
    rw [if_pos h]
    exact hkey
  · rw [if_neg h]
    exact (List.forall_iff_forall_mem.mp hothers field hfield).resolve_left h

/-- What the first of the declared fields gives stands in front of the others, if it gives
anything. -/
theorem exists_of_readFields_cons
    (h : readFields ((key, presence, s) :: fields) entries = .accepted t) :
    ∃ rest, readFields fields entries = .accepted rest ∧
      ((∃ w, FieldGives (key, presence, s) w ∧ t = (key, w) :: rest) ∨
        presence = .optional ∧ t = rest) := by
  rw [readFields, map₂_eq_accepted_iff] at h
  obtain ⟨part, hpart, rest, hrest, rfl⟩ := h
  refine ⟨rest, hrest, ?_⟩
  cases hget : entries.get? key with
  | some v =>
    simp only [hget, map_eq_accepted_iff, under_eq_accepted_iff] at hpart
    obtain ⟨w, hw, rfl⟩ := hpart
    exact .inl ⟨w, .inl ⟨v, hw⟩, rfl⟩
  | none =>
    simp only [hget] at hpart
    cases presence with
    | required => exact absurd hpart (by simp [readAbsent])
    | optional =>
      obtain rfl := Outcome.accepted.inj hpart
      exact .inr ⟨rfl, rfl⟩
    | defaulted w =>
      obtain rfl := Outcome.accepted.inj hpart
      exact .inl ⟨w, .inr rfl, rfl⟩

theorem readFields_cons_of_get? {v w : Value} {rest : Table Value} (hget : u.get? key = some v)
    (hread : s.read v = .accepted w) (hrest : readFields fields u = .accepted rest) :
    readFields ((key, presence, s) :: fields) u = .accepted ((key, w) :: rest) := by
  rw [readFields, hrest]
  simp only [hget, hread]
  rfl

theorem readFields_cons_of_absent {rest : Table Value} (hget : u.get? key = none)
    (hrest : readFields fields u = .accepted rest) :
    readFields ((key, .optional, s) :: fields) u = .accepted rest := by
  rw [readFields, hrest]
  simp only [hget]
  rfl

/-- A record is read as a table with declared keys only. -/
theorem mem_keys_of_readFields (h : readFields fields entries = .accepted t) :
    ∀ k ∈ t.keys, k ∈ fields.map Prod.fst := by
  induction fields generalizing t with
  | nil =>
    obtain rfl := Outcome.accepted.inj h
    exact fun k hk => absurd hk List.not_mem_nil
  | cons field fields ih =>
    obtain ⟨key, presence, s⟩ := field
    obtain ⟨rest, hrest, ⟨w, -, rfl⟩ | ⟨-, rfl⟩⟩ := exists_of_readFields_cons h
    · rw [Table.keys_cons, List.forall_mem_cons]
      exact ⟨List.mem_cons_self, fun k hk => List.mem_cons_of_mem _ (ih hrest k hk)⟩
    · exact fun k hk => List.mem_cons_of_mem _ (ih hrest k hk)

/-- A declared field that is there is read by its own schema. -/
theorem get?_of_readFields (hnodup : (fields.map Prod.fst).Nodup)
    (hfield : (key, presence, s) ∈ fields) (h : readFields fields entries = .accepted t) :
    match entries.get? key with
    | some v => ∃ w, s.read v = .accepted w ∧ t.get? key = some w
    | none => ∃ part, readAbsent presence key s = .accepted part ∧ t.get? key = part.get? key := by
  induction fields generalizing t with
  | nil => exact absurd hfield List.not_mem_nil
  | cons first fields ih =>
    rw [List.map_cons, List.nodup_cons] at hnodup
    rcases List.mem_cons.mp hfield with rfl | hrest
    · rw [readFields, map₂_eq_accepted_iff] at h
      obtain ⟨part, hpart, rest, hrest, rfl⟩ := h
      have hnone : rest.get? key = none :=
        Table.get?_eq_none_iff.mpr fun hmem => hnodup.1 (mem_keys_of_readFields hrest key hmem)
      have hget : Table.get? (part ++ rest) key = part.get? key := by
        rw [Table.get?_append, hnone, Option.or_none]
      cases hentry : entries.get? key with
      | some v =>
        simp only [hentry, map_eq_accepted_iff, under_eq_accepted_iff] at hpart
        obtain ⟨w, hw, rfl⟩ := hpart
        exact ⟨w, hw, hget.trans (if_pos rfl)⟩
      | none =>
        simp only [hentry] at hpart
        exact ⟨part, hpart, hget⟩
    · obtain ⟨k, presence', s'⟩ := first
      have hne : k ≠ key := by
        rintro rfl
        exact hnodup.1 (List.mem_map.mpr ⟨_, hrest, rfl⟩)
      obtain ⟨rest, hread, ⟨w, -, rfl⟩ | ⟨-, rfl⟩⟩ := exists_of_readFields_cons h
      · rw [Table.get?_cons, if_neg hne]
        exact ih hnodup.2 hrest hread
      · exact ih hnodup.2 hrest hread

/-- The declared fields are read again from every table that has under their keys what they were
read as; one of them may change. -/
theorem readFields_again (hnodup : (fields.map Prod.fst).Nodup)
    (h : ∀ field ∈ fields, FieldRereadsAs field (if field.1 = key then f else id))
    (ht : readFields fields entries = .accepted t)
    (hu : ∀ k ∈ fields.map Prod.fst, u.get? k = t.get? k) :
    readFields fields u = .accepted (t.modify key f) := by
  induction fields generalizing t with
  | nil =>
    obtain rfl := Outcome.accepted.inj ht
    rfl
  | cons field fields ih =>
    obtain ⟨k, presence, s⟩ := field
    rw [List.map_cons, List.nodup_cons] at hnodup
    rw [List.map_cons, List.forall_mem_cons] at hu
    rw [List.forall_mem_cons] at h
    obtain ⟨rest, hrest, ⟨w, hw, rfl⟩ | ⟨rfl, rfl⟩⟩ := exists_of_readFields_cons ht
    · have hk : k ∉ rest.keys := fun hmem => hnodup.1 (mem_keys_of_readFields hrest k hmem)
      have hget : u.get? k = some w := by rw [hu.1, Table.get?_cons, if_pos rfl]
      have hagain := ih hnodup.2 h.2 hrest fun k' hk' => by
        have hne : k ≠ k' := by
          rintro rfl
          exact hnodup.1 hk'
        rw [hu.2 k' hk', Table.get?_cons, if_neg hne]
      rw [readFields_cons_of_get? hget (h.1 w hw) hagain]
      by_cases hkey : k = key
      · subst hkey
        rw [Table.modify_cons_self, Table.modify_of_not_mem hk, if_pos rfl]
      · rw [Table.modify_cons_of_ne hkey, if_neg hkey, id]
    · have hk : k ∉ t.keys := fun hmem => hnodup.1 (mem_keys_of_readFields hrest k hmem)
      have hget : u.get? k = none := by rw [hu.1, Table.get?_eq_none_iff.mpr hk]
      exact readFields_cons_of_absent hget (ih hnodup.2 h.2 hrest hu.2)

theorem read_record_eq_accepted_iff {w : Value} :
    (record fields).read (.table entries) = .accepted w ↔
      ∃ t, readFields fields entries = .accepted t ∧
        (∀ k ∈ entries.keys, k ∈ fields.map Prod.fst) ∧ w = .table t := by
  rw [read, map₂_eq_accepted_iff]
  constructor
  · rintro ⟨t, ht, _, hclosed, rfl⟩
    exact ⟨t, ht, isAccepted_readClosed.mp ⟨_, hclosed⟩, rfl⟩
  · rintro ⟨t, ht, hclosed, rfl⟩
    obtain ⟨a, ha⟩ := isAccepted_readClosed.mpr hclosed
    exact ⟨t, ht, a, ha, rfl⟩

/-- **A record is read again field by field**; one of the fields may change. -/
theorem rereadsAs_record (key : String) (hnodup : (fields.map Prod.fst).Nodup)
    (h : ∀ field ∈ fields, FieldRereadsAs field (if field.1 = key then f else id)) :
    (record fields).RereadsAs (onField key f) := by
  intro v w hw
  cases v with
  | table entries =>
    obtain ⟨t, ht, -, rfl⟩ := read_record_eq_accepted_iff.mp hw
    have hagain := readFields_again hnodup h ht fun _ _ => rfl
    exact read_record_eq_accepted_iff.mpr ⟨_, hagain, mem_keys_of_readFields ht, rfl⟩
  | _ => exact absurd hw (by simp [read, wrongKind])

theorem isStable_record (hnodup : (fields.map Prod.fst).Nodup)
    (h : fields.Forall FieldIsStable) : (record fields).IsStable := by
  intro v w hw
  have hagain := rereadsAs_record "" (f := id) hnodup ?_ v w hw
  · rw [hagain, onField_id, id]
  · intro field hfield
    rw [ite_self]
    exact List.forall_iff_forall_mem.mp h field hfield

/-- A record that needs a field takes nothing that a record without that field has read. -/
theorem not_accepts_of_needed (key : String) {fields' : List (String × Presence × Schema)}
    {v w : Value} (hneeded : (key, .required, s) ∈ fields) (hmissing : key ∉ fields'.map Prod.fst)
    (hw : (record fields').read v = .accepted w) : ¬(record fields).Accepts w := by
  intro haccepts
  cases v with
  | table entries =>
    obtain ⟨t, ht, -, rfl⟩ := read_record_eq_accepted_iff.mp hw
    have hfits := (accepts_record_iff.mp haccepts).1 _ hneeded
    have hget : t.get? key = none :=
      Table.get?_eq_none_iff.mpr fun hmem => hmissing (mem_keys_of_readFields ht key hmem)
    unfold FieldFits at hfits
    simp [hget] at hfits
  | _ => exact absurd hw (by simp [read, wrongKind])

/-- **Variants that are told apart by the one field that each has** are stable. -/
theorem isStable_variants_of_nodup (tags : List (String × Schema))
    (hnodup : (tags.map Prod.fst).Nodup) (h : ∀ tag ∈ tags, tag.2.IsStable) :
    (variants (tags.map fun tag => record [(tag.1, .required, tag.2)])).IsStable := by
  refine isStable_variants ?_ ?_
  · intro s hs
    obtain ⟨tag, htag, rfl⟩ := List.mem_map.mp hs
    exact isStable_record (List.nodup_singleton _) (fieldRereadsAs_required (h tag htag))
  · refine List.pairwise_map.mpr ((List.pairwise_map.mp hnodup).imp fun hne v w hw => ?_)
    exact not_accepts_of_needed _ List.mem_cons_self (by simpa using hne) hw

/-- Fields are read one group after the other. -/
theorem readFields_append_eq_accepted_iff {more : List (String × Presence × Schema)} :
    readFields (fields ++ more) entries = .accepted t ↔
      ∃ first, readFields fields entries = .accepted first ∧
        ∃ second, readFields more entries = .accepted second ∧ first ++ second = t := by
  induction fields generalizing t with
  | nil => simp [readFields]
  | cons field fields ih =>
    obtain ⟨key, presence, s⟩ := field
    rw [List.cons_append, readFields, readFields]
    simp only [map₂_eq_accepted_iff, ih]
    constructor
    · rintro ⟨part, hpart, _, ⟨first, hfirst, second, hsecond, rfl⟩, rfl⟩
      exact ⟨_, ⟨part, hpart, first, hfirst, rfl⟩, second, hsecond, List.append_assoc ..⟩
    · rintro ⟨_, ⟨part, hpart, first, hfirst, rfl⟩, second, hsecond, rfl⟩
      exact ⟨part, hpart, _, ⟨first, hfirst, second, hsecond, rfl⟩, (List.append_assoc ..).symm⟩

end Schema

end Bestiary
