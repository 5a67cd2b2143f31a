import Bestiary.Proofs.Editor.Snapshots
import Bestiary.Proofs.Json.Keyed
import Bestiary.Proofs.Tree.Keyed

/-!
# Documents of a session are well-keyed

The documents of a session have every key once when the one that was opened has, and the values that
operations bring in have. Operations read from a script are of that kind.

* `SessionStep.IsKeyed` says of an operation that the values it brings in are well-keyed.
* `EditOp.isKeyed_of_readAll`: those of a script are.
* `Session.keeps_wellKeyed`: such operations keep documents well-keyed.
-/

namespace Bestiary

open Data (WellKeyed)

/-- What the operation makes of well-keyed data is well-keyed. -/
def SessionStep.IsKeyed : SessionStep → Prop
  | .edit _ f => ∀ t v, WellKeyed (.table t) → f t = .ok v → v.WellKeyed
  | .editBehavior _ f => ∀ v w : Value, v.WellKeyed → f v = .ok w → w.WellKeyed
  | .apply (.edit e) => e.IsKeyed
  | _ => True

/-! ## Operations of a script -/

namespace EditOp

open Record

variable {entries : Table Loose} {path : Tree.Path} {name : String} {e : TreeEdit Loose}

theorem wellKeyed_anyField (h : WellKeyed (.table entries)) (key : String) :
    (anyField entries key).WellKeyed := by
  unfold anyField
  cases hkey : entries.get? key with
  | none => trivial
  | some d => exact h.get? hkey

/-- Whatever is read has the property. -/
def Yields {α : Type} (P : α → Prop) (r : Except Issue α) : Prop := ∀ a, r = .ok a → P a

namespace Yields

variable {α β : Type} {P : α → Prop}

theorem pure {a : α} (h : P a) : Yields P (Pure.pure a) := by
  rintro _ ⟨⟩
  exact h

theorem bind {r : Except Issue β} {f : β → Except Issue α} (h : ∀ b, Yields P (f b)) :
    Yields P (r >>= f) := by
  intro a ha
  obtain ⟨b, -, ha⟩ := Except.bind_eq_ok_iff.mp ha
  exact h b a ha

theorem of_some {r : Except Issue α} {a : α} (h : some r = some (.ok a)) (hr : Yields P r) : P a :=
  hr a (Option.some.inj h)

end Yields

theorem isKeyed_of_readNodeEdit (hentries : WellKeyed (.table entries))
    (h : readNodeEdit entries path name = some (.ok e)) : e.IsKeyed := by
  unfold readNodeEdit at h
  split at h
  · exact Yields.of_some h (.bind fun _ => .pure fun d hd => hentries.get? hd)
  · exact Yields.of_some h (.bind fun _ => .bind fun _ => .pure trivial)
  · exact Yields.of_some h (.bind fun _ => .pure trivial)
  · exact Yields.of_some h (.bind fun _ => .bind fun _ => .pure trivial)
  · exact Yields.of_some h (.bind fun _ => .bind fun _ => .pure trivial)
  · exact Yields.of_some h (.bind fun _ => .bind fun _ =>
      .pure (wellKeyed_anyField hentries "value"))
  · exact Yields.of_some h (.bind fun _ => .bind fun _ => .pure trivial)
  · cases h

theorem isKeyed_of_readCommandEdit (hentries : WellKeyed (.table entries))
    (h : readCommandEdit entries path name = some (.ok e)) : e.IsKeyed := by
  unfold readCommandEdit at h
  split at h
  · exact Yields.of_some h (.bind fun _ => .bind fun _ => .pure fun d hd => hentries.get? hd)
  · exact Yields.of_some h (.bind fun _ => .bind fun _ => .pure trivial)
  · exact Yields.of_some h (.bind fun _ => .bind fun _ => .bind fun _ => .pure trivial)
  · exact Yields.of_some h (.bind fun _ => .bind fun _ => .bind fun _ => .pure trivial)
  · exact Yields.of_some h (.bind fun _ => .bind fun _ => .bind fun _ =>
      .pure (wellKeyed_anyField hentries "value"))
  · exact Yields.of_some h (.bind fun _ => .bind fun _ => .bind fun _ => .pure trivial)
  · cases h

theorem isKeyed_of_readStep {op : EditOp} (h : readStep entries name = some (.ok op)) :
    (SessionStep.apply op).IsKeyed := by
  unfold readStep at h
  split at h
  · exact Yields.of_some (P := fun op => (SessionStep.apply op).IsKeyed) h
      (.bind fun _ => .pure trivial)
  · exact Yields.of_some (P := fun op => (SessionStep.apply op).IsKeyed) h
      (.bind fun _ => .pure trivial)
  · cases h

theorem isKeyed_of_map_edit {read : Option (Except Issue (TreeEdit Loose))}
    (hread : ∀ e, read = some (.ok e) → e.IsKeyed) {op : EditOp}
    (h : (read.map fun e => EditOp.edit <$> e) = some (.ok op)) :
    (SessionStep.apply op).IsKeyed := by
  obtain ⟨r, hr, h⟩ := Option.map_eq_some_iff.mp h
  obtain ⟨e, rfl, rfl⟩ := Except.map_eq_ok_iff.mp h
  exact hread e hr

theorem isKeyed_of_readNamed? (hentries : WellKeyed (.table entries)) {op : EditOp}
    (h : readNamed? entries name = some (.ok op)) : (SessionStep.apply op).IsKeyed := by
  unfold readNamed? at h
  cases hpath : pathField entries "path" with
  | error issue =>
    simp only [hpath, Option.orElse_eq_orElse, Option.orElse_eq_or, Option.or_eq_some_iff] at h
    rcases h with h | ⟨-, h | ⟨-, h⟩⟩
    · exact absurd h (by simp)
    · exact absurd h (by simp)
    · exact isKeyed_of_readStep h
  | ok path =>
    simp only [hpath, Option.orElse_eq_orElse, Option.orElse_eq_or, Option.or_eq_some_iff] at h
    rcases h with h | ⟨-, h | ⟨-, h⟩⟩
    · exact isKeyed_of_map_edit (fun _ => isKeyed_of_readNodeEdit hentries) h
    · exact isKeyed_of_map_edit (fun _ => isKeyed_of_readCommandEdit hentries) h
    · exact isKeyed_of_readStep h

/-- One operation. -/
theorem isKeyed_of_read {d : Loose} (hd : d.WellKeyed) {op : EditOp} (h : read d = .ok op) :
    (SessionStep.apply op).IsKeyed := by
  obtain ⟨entries, htable, h⟩ := Except.bind_eq_ok_iff.mp h
  have hentries : WellKeyed (.table entries) := by
    rw [← asTable_eq_ok_iff.mp htable]
    exact hd
  split at h
  · rename_i op' hop
    obtain ⟨name, -, hnamed⟩ := Option.bind_eq_some_iff.mp hop
    rw [h] at hnamed
    exact isKeyed_of_readNamed? hentries hnamed
  · cases h

/-- **The operations of a script bring in well-keyed values.** -/
theorem isKeyed_of_readAll {text : String} {ops : List EditOp} (h : readAll text = .ok ops) :
    ∀ op ∈ ops, (SessionStep.apply op).IsKeyed := by
  intro op hop
  unfold readAll at h
  split at h
  · cases h
  · rename_i d hread
    have hd : d.WellKeyed := Json.wellKeyed_of_read hread
    simp only at h
    rw [Except.mapError_eq_ok_iff] at h
    obtain ⟨item, hitem, hop⟩ := exists_of_mem_readItemsFrom h hop
    refine isKeyed_of_read ?_ hop
    split at hitem
    · exact Data.wellKeyed_list_iff.mp hd item hitem
    · rw [List.mem_singleton.mp hitem]
      exact hd

end EditOp

/-! ## Edits -/

namespace TreeEdit

theorem wellKeyed_of_narrowValue {role : String} {d : Loose} {v : Value}
    (h : narrowValue role d = .ok v) (hd : d.WellKeyed) : v.WellKeyed := by
  unfold narrowValue Loose.toValue at h
  rw [Except.mapError_eq_ok_iff] at h
  split at h
  · rename_i w hw
    cases h
    exact Loose.wellKeyed_of_narrow hw hd
  · exact absurd h (by simp)

theorem wellKeyed_of_narrowOptional {role : String} {d : Option Loose} {v : Option Value}
    (h : narrowOptional role d = .ok v) (hd : ∀ a, d = some a → a.WellKeyed) :
    ∀ a, v = some a → a.WellKeyed := by
  cases d with
  | none =>
    cases h
    exact fun _ ha => absurd ha (by simp)
  | some d =>
    obtain ⟨w, hw, rfl⟩ := Except.map_eq_ok_iff.mp h
    intro a ha
    obtain rfl := Option.some.inj ha
    exact wellKeyed_of_narrowValue hw (hd d rfl)

/-- Narrowing the values of an edit keeps them well-keyed. -/
theorem isKeyed_of_narrow {e : TreeEdit Loose} {e' : TreeEdit Value} (h : e.narrow = .ok e')
    (he : e.IsKeyed) : e'.IsKeyed := by
  cases e with
  | insertChild path child =>
    obtain ⟨v, hv, rfl⟩ := Except.map_eq_ok_iff.mp h
    exact wellKeyed_of_narrowOptional hv he
  | setField path field d =>
    obtain ⟨v, hv, rfl⟩ := Except.map_eq_ok_iff.mp h
    exact wellKeyed_of_narrowValue hv he
  | setParam path command param d =>
    obtain ⟨v, hv, rfl⟩ := Except.map_eq_ok_iff.mp h
    exact wellKeyed_of_narrowValue hv he
  | insertCommand path positions command =>
    obtain ⟨v, hv, rfl⟩ := Except.map_eq_ok_iff.mp h
    obtain ⟨w, hw, hv⟩ := Except.bind_eq_ok_iff.mp hv
    have hkeyed := wellKeyed_of_narrowOptional hw he
    cases w with
    | none =>
      cases hv
      exact fun _ ha => absurd ha (by simp)
    | some a =>
      simp only at hv
      split at hv
      · cases hv
        exact hkeyed
      · exact absurd hv (by simp)
  | _ =>
    cases h
    exact trivial

end TreeEdit

namespace Session

/-- New mobs are well-keyed. -/
theorem wellKeyed_newMob (name : String) : WellKeyed (.table (newMob name)) := by
  simp [newMob, Definition.defaultCollider, Definition.pairValue, Data.natural, WellKeyed,
    Data.EntriesWellKeyed, Data.ItemsWellKeyed, Table.keys]

variable {ε : Type}

theorem keeps_edited {f : Table Value → Except ε Value}
    (hf : ∀ t v, WellKeyed (.table t) → f t = .ok v → v.WellKeyed) :
    (Change.write (edited? f)).Keeps fun t => WellKeyed (.table t) := by
  intro t u ht hu
  unfold edited? at hu
  split at hu
  · rename_i next hnext
    split at hu
    · exact absurd hu (by simp)
    · obtain rfl := Option.some.inj hu
      exact hf t _ ht hnext
  · exact absurd hu (by simp)

theorem keeps_behaviorEdited {f : Value → Except ε Value}
    (hf : ∀ v w : Value, v.WellKeyed → f v = .ok w → w.WellKeyed) :
    (Change.write (behaviorEdited? f)).Keeps fun t => WellKeyed (.table t) := by
  intro t u ht hu
  unfold behaviorEdited? at hu
  split at hu
  · exact absurd hu (by simp)
  · rename_i tree htree
    split at hu
    · rename_i next hnext
      simp only at hu
      split at hu
      · exact absurd hu (by simp)
      · obtain rfl := Option.some.inj hu
        exact ht.set (hf tree next (ht.get? htree) hnext) "behavior"
    · exact absurd hu (by simp)

/-- **Operations that bring in well-keyed values keep documents well-keyed.** -/
theorem keeps_wellKeyed {x : SessionStep} (hx : x.IsKeyed) :
    x.change.Keeps fun t => WellKeyed (.table t) := by
  cases x with
  | edit label f => exact keeps_edited hx
  | editBehavior label f => exact keeps_behaviorEdited hx
  | apply op =>
    cases op with
    | edit e =>
      refine keeps_behaviorEdited fun v w hv hw => ?_
      unfold TreeEdit.run at hw
      obtain ⟨e', he', rfl⟩ := Except.map_eq_ok_iff.mp hw
      exact TreeEdit.wellKeyed_apply (TreeEdit.isKeyed_of_narrow he' hx) hv
    | undo => exact trivial
    | redo => exact trivial
  | undo => exact trivial
  | redo => exact trivial
  | save numeral write => exact trivial
  | validate => exact trivial

end Session

end Bestiary
