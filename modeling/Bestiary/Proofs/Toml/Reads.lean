import Bestiary.Proofs.Data.Equal
import Bestiary.Proofs.Data.Keyed
import Bestiary.Proofs.Toml.Draft
import Mathlib.Data.List.Perm.Basic

/-!
# Data that was read for a value

What is read for a value that was written need not list the keys of tables in the same order.

* `Loose.Reads` says that loose data is, as a value, the same as a given value.
* `Toml.Covers` says that the entries under construction stand for those of a table.
-/

namespace Bestiary

/-- The data is a well-keyed value that is the same as `v`. -/
def Loose.Reads (d : Loose) (v : Value) : Prop :=
  ∃ w : Value, d = w.loosen ∧ w.WellKeyed ∧ w.same v = true

namespace Loose

theorem reads_text (s : String) : Reads (.text s) (.text s) :=
  ⟨.text s, rfl, trivial, by simp [Value.same]⟩

theorem reads_number (n : Number) : Reads (.number n) (.number n) :=
  ⟨.number n, rfl, trivial, by simp [Value.same]⟩

theorem reads_flag (b : Bool) : Reads (.flag b) (.flag b) :=
  ⟨.flag b, rfl, trivial, by simp [Value.same]⟩

theorem reads_list {ds : List Loose} {items : List Value} (h : List.Forall₂ Reads ds items) :
    Reads (.list ds) (.list items) := by
  have hitems : ∃ ws : List Value, ds = Data.mapItems Empty.elim ws ∧
      (∀ w ∈ ws, w.WellKeyed) ∧ List.Forall₂ (fun w v => Value.same w v = true) ws items := by
    induction h with
    | nil => exact ⟨[], rfl, fun _ hw => absurd hw List.not_mem_nil, .nil⟩
    | cons hd _ ih =>
      obtain ⟨w, rfl, hkeyed, hsame⟩ := hd
      obtain ⟨ws, rfl, hkeyeds, hsames⟩ := ih
      exact ⟨w :: ws, rfl, List.forall_mem_cons.mpr ⟨hkeyed, hkeyeds⟩, .cons hsame hsames⟩
  obtain ⟨ws, rfl, hkeyed, hsame⟩ := hitems
  refine ⟨.list ws, rfl, Data.wellKeyed_list_iff.mpr hkeyed, ?_⟩
  rw [Value.same, Value.sameItems_iff]
  exact hsame

/-- Entries that were read for an entry each. -/
def EntryReads (e : String × Loose) (e' : String × Value) : Prop := e.1 = e'.1 ∧ Reads e.2 e'.2

theorem exists_entryReads {ds : List (String × Loose)} {entries : Table Value}
    (h : List.Forall₂ EntryReads ds entries) {e : String × Loose} (he : e ∈ ds) :
    ∃ e' ∈ entries, EntryReads e e' := by
  induction h with
  | nil => exact absurd he List.not_mem_nil
  | cons hd _ ih =>
    rcases List.mem_cons.mp he with rfl | he
    · exact ⟨_, List.mem_cons_self, hd⟩
    · obtain ⟨e', hmem, hreads⟩ := ih he
      exact ⟨e', List.mem_cons_of_mem _ hmem, hreads⟩

theorem keys_eq_of_entryReads {ds : List (String × Loose)} {entries : Table Value}
    (h : List.Forall₂ EntryReads ds entries) : ds.map Prod.fst = entries.keys := by
  induction h with
  | nil => rfl
  | cons hd _ ih => rw [List.map_cons, ih, hd.1, Table.keys_cons]

/-- Entries that were each read for some entry of a table are a table of values. -/
theorem exists_loosen_of_entryReads {ds : List (String × Loose)} {entries : Table Value}
    (hn : entries.keys.Nodup) (h : ∀ e ∈ ds, ∃ e' ∈ entries, EntryReads e e') :
    ∃ w : Table Value, ds = Data.mapEntries Empty.elim w ∧ w.keys = ds.map Prod.fst ∧
      ∀ e ∈ w, e.2.WellKeyed ∧ ∃ v, entries.get? e.1 = some v ∧ Value.same e.2 v = true := by
  induction ds with
  | nil => exact ⟨[], rfl, rfl, fun _ he => absurd he List.not_mem_nil⟩
  | cons e ds ih =>
    obtain ⟨w, hw, hwkeys, hall⟩ := ih fun e he => h e (List.mem_cons_of_mem _ he)
    obtain ⟨⟨k, v⟩, hv, hk, a, ha, hkeyed, hsame⟩ := h e List.mem_cons_self
    refine ⟨(e.1, a) :: w, ?_, ?_, List.forall_mem_cons.mpr ⟨⟨hkeyed, v, ?_, hsame⟩, hall⟩⟩
    · rw [Data.mapEntries, ← hw]
      congr 1
      exact Prod.ext rfl ha
    · rw [Table.keys_cons, hwkeys, List.map_cons]
    · rw [hk]
      exact Table.get?_of_mem hn hv

/-- A table is read in any order of its keys. -/
theorem reads_table {ds : List (String × Loose)} {entries : Table Value}
    (hn : entries.keys.Nodup) (h : Relation.Comp List.Perm (List.Forall₂ EntryReads) ds entries) :
    Reads (.table ds) (.table entries) := by
  obtain ⟨ds', hperm, hreads⟩ := h
  have hnodup : (ds.map Prod.fst).Nodup := by
    rw [← keys_eq_of_entryReads hreads] at hn
    exact (hperm.map Prod.fst).nodup_iff.mpr hn
  have hlen : ds.length = entries.length := hperm.length_eq.trans hreads.length_eq
  obtain ⟨w, hw, hwkeys, hall⟩ := exists_loosen_of_entryReads hn
    fun e he => exists_entryReads hreads (hperm.mem_iff.mp he)
  refine ⟨.table w, by rw [hw]; rfl, ?_, ?_⟩
  · exact Data.wellKeyed_table_iff.mpr ⟨hwkeys ▸ hnodup, fun e he => (hall e he).1⟩
  · refine Value.same_table_iff.mpr ⟨?_, fun e he => (hall e he).2⟩
    have hwlen := congrArg List.length hwkeys
    unfold Table.keys at hwlen
    rw [List.length_map, List.length_map] at hwlen
    exact hwlen.trans hlen

end Loose

namespace Toml

open Loose (EntryReads Reads)

/-- The entries under construction are, in some order, those in `done`. -/
def Covers (es : Table Draft) (done : Table Value) : Prop :=
  Relation.Comp List.Perm (List.Forall₂ EntryReads) (Draft.finishEntries es) done

theorem covers_nil : Covers [] [] := ⟨[], .refl _, .nil⟩

namespace Covers

variable {es : Table Draft} {done done' : Table Value}

/-- The order does not matter. -/
theorem perm (h : Covers es done) (hperm : done.Perm done') : Covers es done' := by
  obtain ⟨ds, hds, hreads⟩ := h
  have hcomp : Relation.Comp (List.Forall₂ EntryReads) List.Perm ds done' := ⟨done, hreads, hperm⟩
  rw [List.forall₂_comp_perm_eq_perm_comp_forall₂] at hcomp
  obtain ⟨ds', hperm', hreads'⟩ := hcomp
  exact ⟨ds', hds.trans hperm', hreads'⟩

/-- One more entry. -/
theorem set (h : Covers es done) {k : String} (hk : es.get? k = none) {d : Draft} {v : Value}
    (hd : Reads d.finish v) : Covers (es.set k d) ((k, v) :: done) := by
  obtain ⟨ds, hds, hreads⟩ := h
  refine ⟨(k, d.finish) :: ds, ?_, .cons ⟨rfl, hd⟩ hreads⟩
  have hset := (Table.set_perm d hk).map fun e => (e.1, e.2.finish)
  rw [Draft.finishEntries_eq_map] at hds ⊢
  exact hset.trans (.cons _ hds)

theorem get?_eq_none (h : Covers es done) {k : String} (hk : k ∉ done.keys) :
    es.get? k = none := by
  rw [Table.get?_eq_none_iff]
  intro hmem
  obtain ⟨ds, hds, hreads⟩ := h
  obtain ⟨d, hd⟩ := Table.mem_keys_iff.mp hmem
  have hfinish : (k, d.finish) ∈ Draft.finishEntries es := by
    rw [Draft.finishEntries_eq_map]
    exact List.mem_map.mpr ⟨_, Table.mem_of_get? hd, rfl⟩
  obtain ⟨e, he, hek⟩ := Loose.exists_entryReads hreads (hds.mem_iff.mp hfinish)
  refine hk (List.mem_map.mpr ⟨e, he, hek.1.symm⟩)

theorem get?_eq_none_of_nodup (h : Covers es done) {k : String} {v : Value} {ents : Table Value}
    (hn : (Table.keys ((k, v) :: ents ++ done)).Nodup) : es.get? k = none := by
  rw [List.cons_append, Table.keys_cons, List.nodup_cons, Table.keys_append, List.mem_append,
    not_or] at hn
  exact h.get?_eq_none hn.1.2

/-- The finished table is the same. -/
theorem reads (h : Covers es done) (hn : done.keys.Nodup) :
    Reads (.table (Draft.finishEntries es)) (.table done) :=
  Loose.reads_table hn h

end Covers

/-- Keys that occur once still do after an entry has moved to the ones that are done. -/
theorem nodup_keys_middle {e : String × Value} {ents done : Table Value}
    (h : (Table.keys (e :: ents ++ done)).Nodup) : (Table.keys (ents ++ e :: done)).Nodup := by
  have hperm : (ents ++ e :: done).Perm (e :: ents ++ done) := List.perm_middle
  exact (hperm.map Prod.fst).nodup_iff.mpr h

end Toml

end Bestiary
