import Bestiary.Proofs.Schema.Reread
import Bestiary.Tree.Edit

/-!
# Unknown keys

A record is closed: one entry more than it declares, and it is refused. The refusal names the key
and the place of the record, however deep the record stands.

* `Value.writeAt?` writes an entry to the table at a place inside a value.
* `Schema.RecordAt` says which places hold records, and which keys are declared there.
* `Schema.RecordAt.read_writeAt?`: a key that is not declared is the one flaw of a value that was
  accepted without it.
-/

namespace Bestiary

/-- The value with an entry written to the table at a place; none if no table stands there. -/
def Value.writeAt? (k : String) (x : Value) : FieldPath → Value → Option Value
  | [], .table t => some (.table (Table.set t k x))
  | .key key :: place, .table t => do
    let inner ← writeAt? k x place (← Table.get? t key)
    pure (.table (Table.set t key inner))
  | .index i :: place, .list items => do
    let inner ← writeAt? k x place (← Tree.itemAt? items i)
    pure (.list (Tree.replaceItem items i inner))
  | _, _ => none

namespace Value

variable {k : String} {x v' : Value} {place : FieldPath}

/-- Below a key, what stands under it is written to. -/
theorem writeAt?_key_iff {key : String} {t : Table Value} :
    writeAt? k x (.key key :: place) (.table t) = some v' ↔
      ∃ v inner, t.get? key = some v ∧ writeAt? k x place v = some inner ∧
        .table (t.set key inner) = v' := by
  simp [writeAt?, Option.bind_eq_some_iff]

/-- Below a position, the item there is written to. -/
theorem writeAt?_index_iff {i : Int} {items : List Value} :
    writeAt? k x (.index i :: place) (.list items) = some v' ↔
      ∃ v inner, Tree.itemAt? items i = some v ∧ writeAt? k x place v = some inner ∧
        .list (Tree.replaceItem items i inner) = v' := by
  simp [writeAt?, Option.bind_eq_some_iff]

end Value

/-- What stands at a position of a list is replaced between its neighbours. -/
theorem Tree.exists_append_of_itemAt? {α : Type} {items : List α} {i : Int} {a : α}
    (h : itemAt? items i = some a) :
    ∃ before after, items = before ++ a :: after ∧ i = (before.length : Nat) ∧
      ∀ b, replaceItem items i b = before ++ b :: after := by
  unfold itemAt? at h
  split at h
  · exact absurd h (by simp)
  · rename_i hi
    obtain ⟨hlt, rfl⟩ := List.getElem?_eq_some_iff.mp h
    refine ⟨items.take i.toNat, items.drop (i.toNat + 1), by simp, ?_, fun b => ?_⟩
    · rw [List.length_take]
      omega
    · rw [replaceItem, List.set_eq_take_append_cons_drop, if_pos hlt]

/-- An entry more that is not allowed is the only one. -/
theorem Record.unknownKeys_set {allowed : List String} {t : Table Value}
    (h : ∀ key ∈ t.keys, key ∈ allowed) {k : String} (hk : k ∉ allowed) (x : Value) :
    unknownKeys allowed (t.set k x) = [k] := by
  have hnone : t.get? k = none := Table.get?_eq_none_iff.mpr fun hmem => hk (h k hmem)
  refine List.perm_singleton.mp ((((Table.set_perm x hnone).map Prod.fst).filter _).trans ?_)
  rw [List.map_cons, List.filter_cons_of_pos (by simpa using hk)]
  exact .of_eq (congrArg (k :: ·) (unknownKeys_eq_nil_iff.mpr h))

namespace Outcome

variable {α β γ : Type}

theorem map₂_flawed_left (f : α → β → γ) (issue : Issue) {o : Outcome β} (h : o.IsAccepted) :
    map₂ f (.flawed issue) o = .flawed issue := by
  obtain ⟨b, rfl⟩ := h
  rfl

theorem map₂_flawed_right (f : α → β → γ) {o : Outcome α} (h : o.IsAccepted) (issue : Issue) :
    map₂ f o (.flawed issue) = .flawed issue := by
  obtain ⟨a, rfl⟩ := h
  rfl

end Outcome

namespace Schema

open Outcome

variable {fields : List (String × Presence × Schema)} {t u : Table Value} {k : String}
  {issue : Issue}

/-! ## One flawed part -/

theorem fieldFits_congr {f : String × Presence × Schema} (h : u.get? f.1 = t.get? f.1) :
    FieldFits f u ↔ FieldFits f t := by
  unfold FieldFits
  rw [h]

/-- Of fields that are read one by one, each is accepted or the reason why the record is not. -/
theorem readFields_flawed {key : String} {presence : Presence} {s : Schema}
    (hnodup : (fields.map Prod.fst).Nodup) (hmem : (key, presence, s) ∈ fields)
    (hothers : ∀ f ∈ fields, f.1 ≠ key → FieldFits f u) {v : Value} (hv : u.get? key = some v)
    (hread : s.read v = .flawed issue) :
    readFields fields u = .flawed (issue.below (.key key)) := by
  induction fields with
  | nil => exact absurd hmem List.not_mem_nil
  | cons f fields ih =>
    obtain ⟨key', presence', s'⟩ := f
    rw [List.map_cons, List.nodup_cons] at hnodup
    rw [List.forall_mem_cons] at hothers
    rw [readFields]
    rcases List.mem_cons.mp hmem with heq | hmem
    · cases heq
      have hrest : (readFields fields u).IsAccepted := isAccepted_readFields.mpr fun f hf =>
        hothers.2 f hf fun hkey => hnodup.1 (List.mem_map.mpr ⟨f, hf, hkey⟩)
      simp only [hv, hread]
      exact map₂_flawed_left _ _ hrest
    · have hne : key' ≠ key := fun hkey => hnodup.1 (List.mem_map.mpr ⟨_, hmem, hkey.symm⟩)
      have hfits := hothers.1 hne
      rw [ih hnodup.2 hmem hothers.2]
      refine map₂_flawed_right _ ?_ _
      unfold FieldFits at hfits
      cases hget : u.get? key' with
      | none => simpa [hget, isAccepted_readAbsent] using hfits
      | some w => simpa [hget, isAccepted_map, isAccepted_under, Accepts] using hfits

/-- Of items that are read one by one, each is accepted or the reason why the list is not. -/
theorem readItems_flawed {item : Value → Outcome Value} {before after : List Value} {v : Value}
    (hbefore : ∀ a ∈ before, (item a).IsAccepted) (hafter : ∀ a ∈ after, (item a).IsAccepted)
    (hv : item v = .flawed issue) (i : Nat) :
    readItems item i (before ++ v :: after) =
      .flawed (issue.below (.index (i + before.length : Nat))) := by
  induction before generalizing i with
  | nil =>
    rw [List.nil_append, readItems, hv]
    exact map₂_flawed_left _ _ (isAccepted_readItems.mpr hafter)
  | cons a before ih =>
    rw [List.forall_mem_cons] at hbefore
    have hplace : i + (a :: before).length = i + 1 + before.length := by
      rw [List.length_cons]
      omega
    rw [List.cons_append, readItems, ih hbefore.2, hplace]
    exact map₂_flawed_right _ (isAccepted_under.mpr hbefore.1) _

/-- Of entries that are read one by one, each is accepted, or the reason why the dictionary is
not. -/
theorem readEntries_flawed {entry : Value → Outcome Value}
    (h : ∀ e ∈ t, (entry e.2).IsAccepted) {key : String} (hmem : key ∈ t.keys) {v : Value}
    (hv : entry v = .flawed issue) :
    readEntries entry (t.replace key v) = .flawed (issue.below (.key key)) := by
  induction t with
  | nil => exact absurd hmem List.not_mem_nil
  | cons e t ih =>
    obtain ⟨key', w⟩ := e
    rw [List.forall_mem_cons] at h
    unfold Table.replace
    split
    · rename_i hkey
      obtain rfl := hkey
      rw [readEntries, hv]
      exact map₂_flawed_left _ _ (isAccepted_readEntries.mpr h.2)
    · rename_i hkey
      rw [Table.keys_cons, List.mem_cons] at hmem
      rw [readEntries, ih h.2 (hmem.resolve_left (Ne.symm hkey))]
      exact map₂_flawed_right _ (isAccepted_under.mpr h.1) _

/-! ## One entry more -/

/-- **A record with one entry more** is flawed by it. -/
theorem read_record_set {allowed : List String} (hallowed : fields.map Prod.fst = allowed)
    (h : (record fields).Accepts (.table t)) (hk : k ∉ allowed) (x : Value) :
    (record fields).read (.table (t.set k x)) = .flawed ⟨[], .unknownKeys k []⟩ := by
  subst hallowed
  obtain ⟨hfits, hkeys⟩ := accepts_record_iff.mp h
  have hfields : (readFields fields (t.set k x)).IsAccepted := by
    refine isAccepted_readFields.mpr fun f hf => (fieldFits_congr ?_).mpr (hfits f hf)
    rw [Table.get?_set, if_neg]
    rintro rfl
    exact hk (List.mem_map_of_mem hf)
  rw [read, readClosed, Record.unknownKeys_set hkeys hk x]
  exact map₂_flawed_right _ hfields _

/-- A record that needs a field refuses a table without it, whatever else it may say of it. -/
theorem read_tagged_of_absent {tag : String} (s : Schema) (h : u.get? tag = none) :
    ∃ issue, (record [(tag, .required, s)]).read (.table u) = .refused issue := by
  simp [read, readFields, h, readAbsent, map₂]

/-- Where one flaw is all that is found, apart from variants that do not fit at all, it counts. -/
theorem firstFitting_flawed {outcomes : List (Outcome Value)}
    (h : ∀ o ∈ outcomes, o = .flawed issue ∨ ∃ issue', o = .refused issue')
    (hmem : .flawed issue ∈ outcomes) : firstFitting outcomes = .flawed issue := by
  induction outcomes with
  | nil => exact absurd hmem List.not_mem_nil
  | cons o outcomes ih =>
    rw [List.forall_mem_cons] at h
    obtain ⟨rfl | ⟨issue', rfl⟩, hrest⟩ := h
    · have hnone : ¬(firstFitting outcomes).IsAccepted := by
        rw [isAccepted_firstFitting]
        rintro ⟨o, ho, haccepted⟩
        obtain rfl | ⟨_, rfl⟩ := hrest o ho
        · exact not_isAccepted_flawed _ haccepted
        · exact not_isAccepted_refused _ haccepted
      rw [firstFitting]
      cases hfirst : firstFitting outcomes with
      | accepted v => exact absurd ⟨v, hfirst⟩ hnone
      | _ => rfl
    · exact ih hrest ((List.mem_cons.mp hmem).resolve_left (by simp))

/-- **One of variants that are told apart by the one field that each has**, with one entry more, is
flawed by it: the others miss their field. -/
theorem read_tagged_set {tags : List (String × Schema)} (hnodup : (tags.map Prod.fst).Nodup)
    (h : (variants (tags.map fun tag => record [(tag.1, .required, tag.2)])).Accepts (.table t))
    (hk : k ∉ tags.map Prod.fst) (x : Value) :
    (variants (tags.map fun tag => record [(tag.1, .required, tag.2)])).read
      (.table (t.set k x)) = .flawed ⟨[], .unknownKeys k []⟩ := by
  obtain ⟨_, hs, haccepts⟩ := accepts_variants_iff.mp h
  obtain ⟨tag, htag, rfl⟩ := List.mem_map.mp hs
  have hflawed := read_record_set rfl haccepts
    (fun hmem => hk (List.mem_map.mpr ⟨tag, htag, (List.mem_singleton.mp hmem).symm⟩)) x
  rw [read, readEach_eq_map, List.map_map]
  refine firstFitting_flawed ?_ (List.mem_map.mpr ⟨tag, htag, hflawed⟩)
  rw [List.forall_mem_map]
  intro other hother
  by_cases hkey : other.1 = tag.1
  · obtain rfl := List.inj_on_of_nodup_map hnodup hother htag hkey
    exact .inl hflawed
  · refine .inr (read_tagged_of_absent other.2 (Table.get?_eq_none_iff.mpr fun hmem => ?_))
    rcases Table.mem_keys_set.mp hmem with heq | hmem
    · exact hk (List.mem_map.mpr ⟨other, hother, heq⟩)
    · exact hkey (List.mem_singleton.mp ((accepts_record_iff.mp haccepts).2 _ hmem))

/-! ## Records at every depth -/

/-- A schema has records at a place, in which the listed keys are declared. Variants that are told
apart by the one field that each has are a record with one of these keys. -/
inductive RecordAt : Schema → FieldPath → List String → Prop
  | record (fields : List (String × Presence × Schema)) :
      RecordAt (.record fields) [] (fields.map Prod.fst)
  | tagged (tags : List (String × Schema)) (hnodup : (tags.map Prod.fst).Nodup) :
      RecordAt (.variants (tags.map fun tag => .record [(tag.1, .required, tag.2)])) []
        (tags.map Prod.fst)
  | field {fields : List (String × Presence × Schema)} {key : String} {presence : Presence}
      {s : Schema} {place : FieldPath} {keys : List String}
      (hnodup : (fields.map Prod.fst).Nodup) (hmem : (key, presence, s) ∈ fields)
      (h : RecordAt s place keys) : RecordAt (.record fields) (.key key :: place) keys
  | item {s : Schema} (i : Int) {place : FieldPath} {keys : List String}
      (h : RecordAt s place keys) : RecordAt (.list s) (.index i :: place) keys
  | entry {s : Schema} (key : String) {place : FieldPath} {keys : List String}
      (h : RecordAt s place keys) : RecordAt (.dictionary s) (.key key :: place) keys

/-- **A key that is not declared is found, and it is all that is found.** -/
theorem RecordAt.read_writeAt? {s : Schema} {place : FieldPath} {keys : List String}
    (hplace : s.RecordAt place keys) {v v' x : Value} (h : s.Accepts v) (hk : k ∉ keys)
    (hv' : Value.writeAt? k x place v = some v') :
    s.read v' = .flawed ⟨place, .unknownKeys k []⟩ := by
  induction hplace generalizing v v' with
  | record fields =>
    obtain ⟨t, rfl⟩ := exists_table_of_accepts_record h
    obtain rfl := Option.some.inj hv'
    exact read_record_set rfl h hk x
  | tagged tags hnodup =>
    obtain ⟨s, hs, haccepts⟩ := accepts_variants_iff.mp h
    obtain ⟨tag, -, rfl⟩ := List.mem_map.mp hs
    obtain ⟨t, rfl⟩ := exists_table_of_accepts_record haccepts
    obtain rfl := Option.some.inj hv'
    exact read_tagged_set hnodup h hk x
  | @field fields key presence s place keys hnodup hmem _ ih =>
    obtain ⟨t, rfl⟩ := exists_table_of_accepts_record h
    obtain ⟨v, inner, hv, hinner, rfl⟩ := Value.writeAt?_key_iff.mp hv'
    obtain ⟨hfits, hkeys⟩ := accepts_record_iff.mp h
    have hfit := hfits _ hmem
    unfold FieldFits at hfit
    simp only [hv] at hfit
    have hread := readFields_flawed (u := t.set key inner) hnodup hmem
      (fun f hf hne => (fieldFits_congr (by rw [Table.get?_set, if_neg (Ne.symm hne)])).mpr
        (hfits f hf)) (by rw [Table.get?_set, if_pos rfl]) (ih hfit hk hinner)
    rw [read, hread]
    refine map₂_flawed_left _ _ (isAccepted_readClosed.mpr fun k hmemk => ?_)
    rw [Table.set_of_get? hv, Table.keys_replace] at hmemk
    exact hkeys k hmemk
  | item i _ ih =>
    obtain ⟨items, rfl, hitems⟩ := accepts_list_iff.mp h
    obtain ⟨v, inner, hv, hinner, rfl⟩ := Value.writeAt?_index_iff.mp hv'
    obtain ⟨before, after, rfl, rfl, hreplace⟩ := Tree.exists_append_of_itemAt? hv
    rw [List.forall_mem_append, List.forall_mem_cons] at hitems
    have hflawed := ih hitems.2.1 hk hinner
    rw [read, hreplace, readItems_flawed hitems.1 hitems.2.2 hflawed, Nat.zero_add]
    rfl
  | entry key _ ih =>
    obtain ⟨t, rfl, hentries⟩ := accepts_dictionary_iff.mp h
    obtain ⟨v, inner, hv, hinner, rfl⟩ := Value.writeAt?_key_iff.mp hv'
    have hflawed := ih (hentries _ (Table.mem_of_get? hv)) hk hinner
    rw [read, Table.set_of_get? hv,
      readEntries_flawed hentries (Table.mem_keys_iff.mpr ⟨v, hv⟩) hflawed]
    rfl

end Schema

end Bestiary
