import Bestiary.Mob.Definition
import Bestiary.Proofs.Data.Table

/-!
# What schemas accept

Reading by a schema gives a value or issues; what matters here is only whether it gives a value.

* `Schema.Accepts` says so of a schema and a value.
* `Schema.accepts_record_iff`: a record is accepted iff each of its fields is and no key is unknown.
-/

namespace Bestiary

/-- An outcome without issues. -/
def Outcome.IsAccepted {α : Type} (o : Outcome α) : Prop := ∃ a, o = .accepted a

namespace Outcome

variable {α β γ : Type}

theorem isAccepted_accepted (a : α) : (accepted a).IsAccepted := ⟨a, rfl⟩

theorem not_isAccepted_flawed (issue : Issue) : ¬(flawed issue : Outcome α).IsAccepted := by
  rintro ⟨a, ha⟩
  exact absurd ha (by simp)

theorem not_isAccepted_refused (issue : Issue) : ¬(refused issue : Outcome α).IsAccepted := by
  rintro ⟨a, ha⟩
  exact absurd ha (by simp)

theorem isAccepted_map {f : α → β} {o : Outcome α} : (o.map f).IsAccepted ↔ o.IsAccepted := by
  cases o <;> simp [map, IsAccepted]

/-- Two parts are accepted iff each is. -/
theorem isAccepted_map₂ {f : α → β → γ} {o : Outcome α} {p : Outcome β} :
    (map₂ f o p).IsAccepted ↔ o.IsAccepted ∧ p.IsAccepted := by
  cases o <;> cases p <;> simp [map₂, map, IsAccepted]

theorem isAccepted_under {step : Step} {o : Outcome α} :
    (o.under step).IsAccepted ↔ o.IsAccepted := by
  cases o <;> simp [under, IsAccepted]

end Outcome

namespace Schema

open Outcome

/-- A value conforms to a schema. -/
def Accepts (s : Schema) (v : Value) : Prop := (s.read v).IsAccepted

/-- A field of a record is as its schema wants it, or absent where it may be. -/
def FieldFits (f : String × Presence × Schema) (entries : Table Value) : Prop :=
  match entries.get? f.1 with
  | some v => f.2.2.Accepts v
  | none => f.2.1 ≠ .required

theorem isAccepted_readAbsent {presence : Presence} {key : String} {s : Schema} :
    (readAbsent presence key s).IsAccepted ↔ presence ≠ .required := by
  cases presence with
  | required => simp [readAbsent, not_isAccepted_refused]
  | optional => simp [readAbsent, isAccepted_accepted]
  | defaulted v => simp [readAbsent, isAccepted_accepted]

/-- The declared fields of a record are accepted iff each is. -/
theorem isAccepted_readFields {fields : List (String × Presence × Schema)}
    {entries : Table Value} :
    (readFields fields entries).IsAccepted ↔ ∀ f ∈ fields, FieldFits f entries := by
  induction fields with
  | nil =>
    rw [readFields]
    exact ⟨fun _ _ hf => absurd hf List.not_mem_nil, fun _ => isAccepted_accepted _⟩
  | cons f fields ih =>
    obtain ⟨key, presence, s⟩ := f
    rw [readFields, List.forall_mem_cons, isAccepted_map₂, ih]
    unfold FieldFits
    cases entries.get? key with
    | none => simp only [isAccepted_readAbsent]
    | some v => simp only [isAccepted_map, isAccepted_under, Accepts]

theorem isAccepted_readClosed {allowed : List String} {entries : Table Value} :
    (readClosed allowed entries).IsAccepted ↔ ∀ k ∈ entries.keys, k ∈ allowed := by
  rw [← Record.unknownKeys_eq_nil_iff]
  unfold readClosed
  cases Record.unknownKeys allowed entries with
  | nil => simp [isAccepted_accepted]
  | cons first others => simp [not_isAccepted_flawed]

/-- **A record is accepted iff each of its fields is and it has no other keys.** -/
theorem accepts_record_iff {fields : List (String × Presence × Schema)} {entries : Table Value} :
    (Schema.record fields).Accepts (.table entries) ↔
      (∀ f ∈ fields, FieldFits f entries) ∧ ∀ k ∈ entries.keys, k ∈ fields.map Prod.fst := by
  unfold Accepts
  rw [read, isAccepted_map₂, isAccepted_readFields, isAccepted_readClosed]

/-- Only the entries that a record declares matter, and of a field that takes anything, not even
that. -/
theorem accepts_record_of_agree {fields : List (String × Presence × Schema)} {free : String}
    (hfree : ∀ f ∈ fields, f.1 = free → f.2.1 ≠ .required ∧ f.2.2 = .anything)
    (hmem : free ∈ fields.map Prod.fst) {t u : Table Value}
    (hagree : ∀ k, k ≠ free → u.get? k = t.get? k)
    (h : (Schema.record fields).Accepts (.table t)) :
    (Schema.record fields).Accepts (.table u) := by
  rw [accepts_record_iff] at h ⊢
  refine ⟨?_, ?_⟩
  · intro f hf
    by_cases hk : f.1 = free
    · obtain ⟨hspare, hanything⟩ := hfree f hf hk
      unfold FieldFits
      cases u.get? f.1 with
      | none => exact hspare
      | some v =>
        simp only [hanything, Accepts, read]
        exact isAccepted_accepted v
    · have hfits := h.1 f hf
      unfold FieldFits at hfits ⊢
      rw [hagree f.1 hk]
      exact hfits
  · intro k hk
    by_cases hkf : k = free
    · rw [hkf]
      exact hmem
    · refine h.2 k ?_
      rw [Table.mem_keys_iff] at hk ⊢
      rw [← hagree k hkf]
      exact hk

end Schema

namespace Definition

/-- A definition can be read iff its schema accepts it. -/
theorem readBy_ok_iff {s : Schema} {entity : String} {v : Value} :
    (∃ m, readBy s entity v = .ok m) ↔ s.Accepts v := by
  unfold readBy Schema.Accepts
  cases s.read v <;> simp [Outcome.toExcept, Outcome.IsAccepted]

/-- A definition may have any tree, or none. -/
theorem behavior_free :
    ∀ f ∈ allFields, f.1 = "behavior" → f.2.1 ≠ .required ∧ f.2.2 = .anything := by
  intro f hf hname
  simp only [allFields, List.mem_cons, List.not_mem_nil, or_false] at hf
  rcases hf with h | h | h | h | h | h | h | h | h | h | h | h | h | h | h | h | h | h | h | h |
    h | h | h | h | h | h | h | rfl
  all_goals first | exact ⟨by simp [spare], rfl⟩ | (subst h; exact absurd hname (by decide))

theorem behavior_mem : "behavior" ∈ allFields.map Prod.fst := by decide

/-- Another tree makes no difference to the schema. -/
theorem schema_accepts_of_agree {t u : Table Value} (h : t.AgreeBut "behavior" u)
    (ht : schema.Accepts (.table t)) : schema.Accepts (.table u) :=
  Schema.accepts_record_of_agree behavior_free behavior_mem h ht

theorem patchSchema_accepts_of_agree {t u : Table Value} (h : t.AgreeBut "behavior" u)
    (ht : patchSchema.Accepts (.table t)) : patchSchema.Accepts (.table u) := by
  refine Schema.accepts_record_of_agree ?_ (by decide) h ht
  intro f hf hname
  obtain ⟨g, hg, rfl⟩ := List.mem_map.mp hf
  exact ⟨by simp, (behavior_free g hg hname).2⟩

theorem read_ok_iff (entity : String) {v : Value} :
    (∃ m, read entity v = .ok m) ↔ schema.Accepts v := readBy_ok_iff

theorem readPatch_ok_iff (entity : String) {v : Value} :
    (∃ m, readPatch entity v = .ok m) ↔ patchSchema.Accepts v := readBy_ok_iff

end Definition

end Bestiary
