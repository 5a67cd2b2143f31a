import Bestiary.Proofs.Data.Equal
import Bestiary.Proofs.Data.Keyed
import Bestiary.Proofs.Schema.Accepts
import Bestiary.Proofs.Schema.Induction

/-!
# Schemas and the order of keys

Whether a schema accepts a value does not depend on the order of keys in it.

* `Schema.Blind` says of a schema that it accepts what is the same as a value it accepts.
* `Schema.blind`: every schema does.
-/

namespace Bestiary

open Data (WellKeyed)

namespace Value

/-! ## What is the same as a value of one kind -/

theorem eq_text_of_same {w : Value} {s : String} (h : same w (.text s) = true) : w = .text s := by
  cases w <;> simp_all [same]

theorem eq_number_of_same {w : Value} {n : Number} (h : same w (.number n) = true) :
    w = .number n := by
  cases w <;> simp_all [same]

theorem eq_flag_of_same {w : Value} {b : Bool} (h : same w (.flag b) = true) : w = .flag b := by
  cases w <;> simp_all [same]

theorem exists_list_of_same {w : Value} {items : List Value} (h : same w (.list items) = true) :
    ∃ items', w = .list items' ∧ List.Forall₂ (fun a b => same a b = true) items' items := by
  cases w with
  | list items' =>
    rw [same, sameItems_iff] at h
    exact ⟨items', rfl, h⟩
  | _ => exact absurd h (by simp [same])

theorem exists_table_of_same {w : Value} {t : Table Value} (h : same w (.table t) = true) :
    ∃ t', w = .table t' ∧ same (.table t') (.table t) = true := by
  cases w with
  | table t' => exact ⟨t', rfl, h⟩
  | _ => exact absurd h (by simp [same])

end Value

namespace Schema

open Value Outcome

variable {v : Value}

/-! ## What schemas of each kind accept -/

theorem accepts_text_iff : text.Accepts v ↔ ∃ s, v = .text s := by
  cases v <;> simp [Accepts, read, IsAccepted, wrongKind]

theorem accepts_number_iff : number.Accepts v ↔ ∃ n, v = .number n := by
  cases v <;> simp [Accepts, read, IsAccepted, wrongKind]

theorem accepts_flag_iff : flag.Accepts v ↔ ∃ b, v = .flag b := by
  cases v <;> simp [Accepts, read, IsAccepted, wrongKind]

theorem exists_number_of_accepts_natural {most : Option Nat} (h : (natural most).Accepts v) :
    ∃ n, v = .number n := by
  cases v <;> simp_all [Accepts, read, readNatural, IsAccepted, wrongKind]

theorem exists_text_of_accepts_mobRef (h : mobRef.Accepts v) : ∃ s, v = .text s := by
  cases v <;> simp_all [Accepts, read, IsAccepted, wrongKind]

theorem exists_text_of_accepts_oneOf {names : List String} (h : (oneOf names).Accepts v) :
    ∃ s, v = .text s := by
  cases v <;> simp_all [Accepts, read, readOneOf, IsAccepted, wrongKind]

theorem isAccepted_orFlaw {ok : Bool} {complaint : Complaint} :
    (orFlaw ok complaint).IsAccepted ↔ ok = true := by
  cases ok <;> simp [orFlaw, IsAccepted]

theorem isAccepted_readItems {item : Value → Outcome Value} {i : Nat} {items : List Value} :
    (readItems item i items).IsAccepted ↔ ∀ a ∈ items, (item a).IsAccepted := by
  induction items generalizing i with
  | nil => exact ⟨fun _ _ ha => absurd ha List.not_mem_nil, fun _ => isAccepted_accepted _⟩
  | cons a items ih =>
    rw [readItems, isAccepted_map₂, isAccepted_under, ih, List.forall_mem_cons]

theorem isAccepted_readEntries {entry : Value → Outcome Value} {t : Table Value} :
    (readEntries entry t).IsAccepted ↔ ∀ e ∈ t, (entry e.2).IsAccepted := by
  induction t with
  | nil => exact ⟨fun _ _ he => absurd he List.not_mem_nil, fun _ => isAccepted_accepted _⟩
  | cons e t ih =>
    obtain ⟨k, a⟩ := e
    rw [readEntries, isAccepted_map₂, isAccepted_under, ih, List.forall_mem_cons]

/-- One of several outcomes fits iff one was accepted. -/
theorem isAccepted_firstFitting {outcomes : List (Outcome Value)} :
    (firstFitting outcomes).IsAccepted ↔ ∃ o ∈ outcomes, o.IsAccepted := by
  induction outcomes with
  | nil => simp [firstFitting, not_isAccepted_refused]
  | cons o outcomes ih =>
    rw [List.exists_mem_cons_iff, ← ih]
    cases o with
    | accepted a => simp [firstFitting, isAccepted_accepted]
    | refused issue => simp [firstFitting, not_isAccepted_refused]
    | flawed issue =>
      rw [firstFitting]
      cases firstFitting outcomes <;>
        simp [isAccepted_accepted, not_isAccepted_flawed, not_isAccepted_refused]

theorem readEach_eq_map (alternatives : List Schema) (v : Value) :
    readEach alternatives v = alternatives.map fun s => s.read v := by
  induction alternatives with
  | nil => rfl
  | cons s alternatives ih => rw [readEach, ih, List.map_cons]

theorem accepts_pair_iff {first second : Schema} :
    (pair first second).Accepts v ↔
      ∃ a b, v = .list [a, b] ∧ first.Accepts a ∧ second.Accepts b := by
  unfold Accepts
  rw [read]
  cases v with
  | list items =>
    rcases items with _ | ⟨a, _ | ⟨b, more⟩⟩
    · simp [readPair, not_isAccepted_refused]
    · simp [readPair, not_isAccepted_refused]
    · simp only [readPair, isAccepted_map₂, isAccepted_orFlaw, isAccepted_under,
        List.isEmpty_iff]
      constructor
      · rintro ⟨rfl, ha, hb⟩
        exact ⟨a, b, rfl, ha, hb⟩
      · rintro ⟨a', b', heq, ha, hb⟩
        cases heq
        exact ⟨rfl, ha, hb⟩
  | _ => simp [readPair, wrongKind, not_isAccepted_refused]

theorem accepts_list_iff {item : Schema} :
    (list item).Accepts v ↔ ∃ items, v = .list items ∧ ∀ a ∈ items, item.Accepts a := by
  unfold Accepts
  cases v <;> simp [read, isAccepted_map, isAccepted_readItems, wrongKind, not_isAccepted_refused]

theorem accepts_dictionary_iff {entry : Schema} :
    (dictionary entry).Accepts v ↔
      ∃ t : Table Value, v = .table t ∧ ∀ e ∈ t, entry.Accepts e.2 := by
  unfold Accepts
  cases v with
  | table t =>
    rw [read, isAccepted_map, isAccepted_readEntries]
    constructor
    · exact fun h => ⟨t, rfl, h⟩
    · rintro ⟨t', heq, h⟩
      cases heq
      exact h
  | _ => simp [read, wrongKind, not_isAccepted_refused]

theorem exists_table_of_accepts_record {fields : List (String × Presence × Schema)}
    (h : (record fields).Accepts v) : ∃ t : Table Value, v = .table t := by
  cases v with
  | table t => exact ⟨t, rfl⟩
  | _ => exact absurd h (by simp [Accepts, read, wrongKind, not_isAccepted_refused])

theorem accepts_variants_iff {alternatives : List Schema} :
    (variants alternatives).Accepts v ↔ ∃ s ∈ alternatives, s.Accepts v := by
  unfold Accepts
  rw [read, isAccepted_firstFitting, readEach_eq_map]
  simp

/-! ## The order of keys -/

/-- A schema accepts a value that is the same as an accepted one. -/
def Blind (s : Schema) : Prop :=
  ∀ v w : Value, v.WellKeyed → w.WellKeyed → same w v = true → s.Accepts v → s.Accepts w

/-- Leaves that are the same are equal. -/
theorem eq_of_same_leaf {w : Value} (h : same w v = true)
    (hv : (∃ s, v = .text s) ∨ (∃ n, v = .number n) ∨ ∃ b, v = .flag b) : w = v := by
  rcases hv with ⟨s, rfl⟩ | ⟨n, rfl⟩ | ⟨b, rfl⟩
  · exact eq_text_of_same h
  · exact eq_number_of_same h
  · exact eq_flag_of_same h

theorem blind_pair {first second : Schema} (hfirst : first.Blind) (hsecond : second.Blind) :
    (pair first second).Blind := by
  intro v w hv hw hsame h
  obtain ⟨a, b, rfl, ha, hb⟩ := accepts_pair_iff.mp h
  obtain ⟨items, rfl, hitems⟩ := exists_list_of_same hsame
  rw [Data.wellKeyed_list_iff] at hv hw
  obtain _ | ⟨ha', _ | ⟨hb', _ | _⟩⟩ := hitems
  exact accepts_pair_iff.mpr ⟨_, _, rfl, hfirst _ _ (hv _ (by simp)) (hw _ (by simp)) ha' ha,
    hsecond _ _ (hv _ (by simp)) (hw _ (by simp)) hb' hb⟩

theorem blind_list {item : Schema} (hitem : item.Blind) : (list item).Blind := by
  intro v w hv hw hsame h
  obtain ⟨items, rfl, hitems⟩ := accepts_list_iff.mp h
  obtain ⟨items', rfl, hsames⟩ := exists_list_of_same hsame
  rw [Data.wellKeyed_list_iff] at hv hw
  refine accepts_list_iff.mpr ⟨items', rfl, ?_⟩
  clear h hsame
  induction hsames with
  | nil => exact fun _ ha => absurd ha List.not_mem_nil
  | cons hab _ ih =>
    rw [List.forall_mem_cons] at hv hw hitems ⊢
    exact ⟨hitem _ _ hv.1 hw.1 hab hitems.1, ih hitems.2 hv.2 hw.2⟩

theorem blind_dictionary {entry : Schema} (hentry : entry.Blind) : (dictionary entry).Blind := by
  intro v w hv hw hsame h
  obtain ⟨t, rfl, ht⟩ := accepts_dictionary_iff.mp h
  obtain ⟨t', rfl, hsame⟩ := exists_table_of_same hsame
  refine accepts_dictionary_iff.mpr ⟨t', rfl, fun e he => ?_⟩
  obtain ⟨a, ha, hea⟩ := (same_table_iff.mp hsame).2 e he
  exact hentry _ _ (hv.get? ha) ((Data.wellKeyed_table_iff.mp hw).2 e he) hea
    (ht _ (Table.mem_of_get? ha))

theorem blind_record {fields : List (String × Presence × Schema)}
    (hfields : ∀ f ∈ fields, f.2.2.Blind) : (record fields).Blind := by
  intro v w hv hw hsame h
  obtain ⟨t, rfl⟩ := exists_table_of_accepts_record h
  obtain ⟨t', rfl, hsame⟩ := exists_table_of_same hsame
  have hkeys := mem_keys_of_same (Data.wellKeyed_table_iff.mp hw).1 hsame
  rw [accepts_record_iff] at h ⊢
  refine ⟨fun f hf => ?_, fun k hk => h.2 k ((hkeys k).mp hk)⟩
  have hfits := h.1 f hf
  have hagree := agree_get? (Data.wellKeyed_table_iff.mp hw).1 hsame f.1
  unfold FieldFits at hfits ⊢
  cases ht' : Table.get? t' f.1 with
  | none =>
    rw [ht'] at hagree
    cases ht : t.get? f.1 with
    | none =>
      rw [ht] at hfits
      exact hfits
    | some a =>
      rw [ht] at hagree
      exact absurd hagree (by simp [agree])
  | some b =>
    rw [ht'] at hagree
    cases ht : t.get? f.1 with
    | none =>
      rw [ht] at hagree
      exact absurd hagree (by simp [agree])
    | some a =>
      rw [ht] at hfits hagree
      exact hfields f hf a b (hv.get? ht) (hw.get? ht') hagree hfits

theorem blind_variants {alternatives : List Schema} (h : ∀ s ∈ alternatives, s.Blind) :
    (variants alternatives).Blind := by
  intro v w hv hw hsame haccepts
  obtain ⟨s, hs, hv'⟩ := accepts_variants_iff.mp haccepts
  exact accepts_variants_iff.mpr ⟨s, hs, h s hs v w hv hw hsame hv'⟩

/-- **No schema looks at the order of keys.** -/
theorem blind (s : Schema) : s.Blind := by
  induction s using Schema.induction with
  | text =>
    intro v w _ _ hsame h
    rw [eq_of_same_leaf hsame (.inl (accepts_text_iff.mp h))]
    exact h
  | number =>
    intro v w _ _ hsame h
    rw [eq_of_same_leaf hsame (.inr (.inl (accepts_number_iff.mp h)))]
    exact h
  | flag =>
    intro v w _ _ hsame h
    rw [eq_of_same_leaf hsame (.inr (.inr (accepts_flag_iff.mp h)))]
    exact h
  | natural most =>
    intro v w _ _ hsame h
    rw [eq_of_same_leaf hsame (.inr (.inl (exists_number_of_accepts_natural h)))]
    exact h
  | mobRef =>
    intro v w _ _ hsame h
    rw [eq_of_same_leaf hsame (.inl (exists_text_of_accepts_mobRef h))]
    exact h
  | oneOf names =>
    intro v w _ _ hsame h
    rw [eq_of_same_leaf hsame (.inl (exists_text_of_accepts_oneOf h))]
    exact h
  | pair first second hfirst hsecond => exact blind_pair hfirst hsecond
  | list item hitem => exact blind_list hitem
  | dictionary entry hentry => exact blind_dictionary hentry
  | record fields hfields => exact blind_record hfields
  | variants alternatives halternatives => exact blind_variants halternatives
  | anything => exact fun _ w _ _ _ _ => isAccepted_accepted w

end Schema

end Bestiary
