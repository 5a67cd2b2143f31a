import Bestiary.Proofs.Data.Keyed
import Bestiary.Proofs.Toml.Draft
import Bestiary.Toml.Document

/-!
# Parsed documents are well-keyed

A declaration that would name a key twice is refused, so the table of a document has every key once,
at every depth.

* `Draft.Keeps` says that a change of the entries under construction keeps keys apart. All three
  declarations do, at any path.
* `readsKeyed`: so do the values that are read.
* `wellKeyed_of_parse`: what is parsed is well-keyed.
-/

namespace Bestiary.Toml

open Data (WellKeyed)

namespace Draft

variable {entries : Table Draft} {k : String} {d : Draft}
  {change : Table Draft → Option (Table Draft)}

/-- The entries become a table without a key twice. -/
def IsKeyed (entries : Table Draft) : Prop := WellKeyed (.table (finishEntries entries))

theorem isKeyed_iff :
    IsKeyed entries ↔ entries.keys.Nodup ∧ ∀ e ∈ entries, e.2.finish.WellKeyed := by
  have hkeys : Table.keys (finishEntries entries) = entries.keys := by
    simp [finishEntries_eq_map, Table.keys]
  rw [IsKeyed, Data.wellKeyed_table_iff, hkeys, finishEntries_eq_map, List.forall_mem_map]

theorem isKeyed_series_iff {elements : List (Table Draft)} :
    (finish (.series elements)).WellKeyed ↔ ∀ es ∈ elements, IsKeyed es := by
  rw [finish, Data.wellKeyed_list_iff, finishElements_eq_map, List.forall_mem_map]
  rfl

theorem isKeyed_nil : IsKeyed [] := isKeyed_iff.mpr ⟨List.nodup_nil, by simp⟩

theorem IsKeyed.set (h : IsKeyed entries) (k : String) (hd : d.finish.WellKeyed) :
    IsKeyed (entries.set k d) := by
  rw [isKeyed_iff] at h ⊢
  refine ⟨Table.nodup_keys_set h.1 k d, fun e he => ?_⟩
  rcases Table.mem_set he with rfl | he
  · exact hd
  · exact h.2 e he

theorem IsKeyed.get? (h : IsKeyed entries) (hk : entries.get? k = some d) : d.finish.WellKeyed :=
  (isKeyed_iff.mp h).2 _ (Table.mem_of_get? hk)

/-! ## Declarations -/

/-- What the change makes of keyed entries is keyed. -/
def Keeps (change : Table Draft → Option (Table Draft)) : Prop :=
  ∀ es es', IsKeyed es → change es = some es' → IsKeyed es'

/-- A change below an entry. -/
theorem Keeps.below (h : Keeps change) (hd : d.finish.WellKeyed) {d' : Draft}
    (hd' : below? change d = some d') : d'.finish.WellKeyed := by
  cases d with
  | value v => exact absurd hd' (by simp [below?])
  | keyed es =>
    obtain ⟨es', hes', rfl⟩ := Option.map_eq_some_iff.mp hd'
    exact h es es' hd hes'
  | opened defined es =>
    obtain ⟨es', hes', rfl⟩ := Option.map_eq_some_iff.mp hd'
    exact h es es' hd hes'
  | between defined es =>
    obtain ⟨es', hes', rfl⟩ := Option.map_eq_some_iff.mp hd'
    exact h es es' hd hes'
  | series elements =>
    obtain ⟨elements', helements, rfl⟩ := Option.map_eq_some_iff.mp hd'
    obtain ⟨es', hes', rfl⟩ := Option.map_eq_some_iff.mp helements
    obtain ⟨es, hes, hes'⟩ := Option.bind_eq_some_iff.mp hes'
    rw [isKeyed_series_iff] at hd ⊢
    rw [List.forall_mem_append, List.forall_mem_singleton]
    exact ⟨fun e he => hd e (List.dropLast_subset elements he),
      h es es' (hd es (List.mem_of_getLast? hes)) hes'⟩

/-- A change below a key: of a new table where there is none, else of what is there. -/
theorem Keeps.set_below (h : Keeps change) {new : Table Draft → Draft}
    (hnew : ∀ es, IsKeyed es → (new es).finish.WellKeyed) {k : String} {entries es' : Table Draft}
    (hentries : IsKeyed entries)
    (hes' : (match entries.get? k with
      | none => (change []).map fun es => entries.set k (new es)
      | some d => (below? change d).map (entries.set k)) = some es') : IsKeyed es' := by
  split at hes'
  · obtain ⟨es, hes, rfl⟩ := Option.map_eq_some_iff.mp hes'
    exact hentries.set k (hnew es (h [] es isKeyed_nil hes))
  · rename_i d hget
    obtain ⟨d', hd', rfl⟩ := Option.map_eq_some_iff.mp hes'
    exact hentries.set k (h.below (hentries.get? hget) hd')

theorem keeps_assign? (key : List String) {value : Loose} (hvalue : value.WellKeyed) :
    Keeps (assign? · key value) := by
  intro entries es' hentries h
  simp only at h
  fun_induction assign? entries key value generalizing es' with
  | case1 entries => cases h
  | case2 entries k hhas => cases h
  | case3 entries k hhas =>
    cases h
    exact hentries.set k hvalue
  | case4 entries k rest hrest hget ih =>
    obtain ⟨es, hes, rfl⟩ := Option.map_eq_some_iff.mp h
    exact hentries.set k (ih es isKeyed_nil hes)
  | case5 entries k rest hrest es hget ih =>
    obtain ⟨es', hes, rfl⟩ := Option.map_eq_some_iff.mp h
    exact hentries.set k (ih es' (hentries.get? hget) hes)
  | case6 entries k rest hrest defined es hget ih =>
    obtain ⟨es', hes, rfl⟩ := Option.map_eq_some_iff.mp h
    exact hentries.set k (ih es' (hentries.get? hget) hes)
  | case7 => cases h

theorem keeps_openTable? (key : List String) : Keeps (openTable? · key) := by
  induction key with
  | nil => exact fun _ _ _ h => absurd h (by simp [openTable?])
  | cons k rest ih =>
    intro entries es' hentries h
    cases rest with
    | nil =>
      simp only [openTable?] at h
      split at h
      · cases h
        exact hentries.set k isKeyed_nil
      · rename_i es hget
        cases h
        have hes : IsKeyed es := hentries.get? hget
        exact hentries.set k hes
      · rename_i es hget
        cases h
        have hes : IsKeyed es := hentries.get? hget
        exact hentries.set k hes
      · cases h
    | cons k' rest =>
      simp only [openTable?] at h
      refine ih.set_below ?_ hentries h
      exact fun _ hes => hes

theorem keeps_openElement? (key : List String) : Keeps (openElement? · key) := by
  induction key with
  | nil => exact fun _ _ _ h => absurd h (by simp [openElement?])
  | cons k rest ih =>
    intro entries es' hentries h
    cases rest with
    | nil =>
      simp only [openElement?] at h
      split at h
      · cases h
        exact hentries.set k (isKeyed_series_iff.mpr (by simpa using isKeyed_nil))
      · rename_i elements hget
        cases h
        refine hentries.set k (isKeyed_series_iff.mpr ?_)
        rw [List.forall_mem_append, List.forall_mem_singleton]
        exact ⟨isKeyed_series_iff.mp (hentries.get? hget), isKeyed_nil⟩
      · cases h
    | cons k' rest =>
      simp only [openElement?] at h
      refine ih.set_below ?_ hentries h
      exact fun _ hes => hes

/-- **A change at a path** keeps keys apart when it does so in the table there. -/
theorem Keeps.changeAt? (h : Keeps change) (key : List String) :
    Keeps (Draft.changeAt? · key change) := by
  induction key with
  | nil => exact h
  | cons k rest ih =>
    intro entries es' hentries hes'
    simp only [Draft.changeAt?] at hes'
    obtain ⟨d, hget, hd⟩ := Option.bind_eq_some_iff.mp hes'
    obtain ⟨d', hd', rfl⟩ := Option.map_eq_some_iff.mp hd
    exact hentries.set k (ih.below (hentries.get? hget) hd')

/-- A change that is left out where it is refused. -/
theorem Keeps.getD (h : Keeps change) {es : Table Draft} (hes : IsKeyed es) :
    IsKeyed ((change es).getD es) := by
  cases hchange : change es with
  | none => exact hes
  | some es' => exact h es es' hes hchange

end Draft

open Draft

/-! ## Values -/

section Values

variable {closing : Option Char} {start cs rest : List Char} {d : Loose}

theorem wellKeyed_of_readWord {word : String} {d' : Loose} (hd : d.WellKeyed)
    (h : readWord word d cs = .ok (d', rest)) : d'.WellKeyed := by
  unfold readWord at h
  split at h
  · cases h
    exact hd
  · cases h

theorem wellKeyed_of_integer {negative : Bool} {n : Nat} (h : integer start negative n = .ok d) :
    d.WellKeyed := by
  unfold integer at h
  split at h
  · cases h
    trivial
  · cases h

theorem wellKeyed_of_decimalNumber {negative : Bool} {digits : Digits}
    (h : decimalNumber start negative digits = .ok d) : d.WellKeyed := by
  unfold decimalNumber at h
  split at h
  · exact wellKeyed_of_integer h
  · split at h
    · cases h
      trivial
    · cases h
      trivial

theorem wellKeyed_of_readUnsigned {sign : Option Char}
    (h : readUnsigned start closing sign cs = .ok (d, rest)) : d.WellKeyed := by
  have hdecimal {negative : Bool}
      (h : (do
        let read ← readDecimal start closing .whole .sign cs
        let n ← decimalNumber start negative read.1
        pure (n, read.2) : Except Stop (WithRest Loose)) = .ok (d, rest)) : d.WellKeyed := by
    obtain ⟨⟨digits, rest'⟩, -, h⟩ := Except.bind_eq_ok_iff.mp h
    obtain ⟨n, hn, h⟩ := Except.bind_eq_ok_iff.mp h
    cases h
    exact wellKeyed_of_decimalNumber hn
  unfold readUnsigned at h
  simp only at h
  split at h
  · cases h
    trivial
  · cases h
    trivial
  · split at h
    · exact hdecimal h
    · split at h
      · split at h
        · exact hdecimal h
        · split at h
          · obtain ⟨⟨digits, rest'⟩, -, h⟩ := Except.bind_eq_ok_iff.mp h
            obtain ⟨n, hn, h⟩ := Except.bind_eq_ok_iff.mp h
            cases h
            exact wellKeyed_of_integer hn
          · cases h
      · cases h
  · split at h
    · exact hdecimal h
    · cases h
  · cases h

theorem wellKeyed_of_readNumeral (h : readNumeral closing cs = .ok (d, rest)) : d.WellKeyed := by
  unfold readNumeral at h
  split at h <;> exact wellKeyed_of_readUnsigned h

theorem wellKeyed_of_moment {valid : List Char → Bool} {length : Nat}
    (h : moment valid length cs = .ok (d, rest)) : d.WellKeyed := by
  unfold moment at h
  split at h
  · cases h
    trivial
  · cases h

theorem wellKeyed_of_readDate (h : readDate cs = .ok (d, rest)) : d.WellKeyed := by
  unfold readDate at h
  simp only at h
  split at h
  · split at h
    · split at h
      · exact wellKeyed_of_moment h
      · cases h
    · exact wellKeyed_of_moment h
  · cases h

theorem wellKeyed_of_readScalar (h : readScalar closing cs = .ok (d, rest)) : d.WellKeyed := by
  unfold readScalar at h
  split at h
  · exact wellKeyed_of_readNumeral h
  · exact wellKeyed_of_readNumeral h
  · split at h
    · split at h
      · exact wellKeyed_of_readDate h
      · exact wellKeyed_of_readNumeral h
    · split at h
      · split at h
        · exact wellKeyed_of_moment h
        · exact wellKeyed_of_readNumeral h
      · exact wellKeyed_of_readNumeral h

/-- With so much fuel, values and the items of arrays are well-keyed, and the entries of an inline
table stay keyed. -/
structure ReadsKeyed (fuel : Nat) : Prop where
  value : ∀ {depth closing cs d rest}, readValue fuel depth closing cs = .ok (d, rest) →
    d.WellKeyed
  array : ∀ {depth start cs items rest}, readArray fuel depth start cs = .ok (items, rest) →
    ∀ d ∈ items, d.WellKeyed
  inline : ∀ {depth start entries cs es rest}, IsKeyed entries →
    readInline fuel depth start entries cs = .ok (es, rest) → IsKeyed es

variable {fuel depth : Nat}

theorem wellKeyed_of_readValue_succ (ih : ReadsKeyed fuel)
    (h : readValue (fuel + 1) depth closing cs = .ok (d, rest)) : d.WellKeyed := by
  unfold readValue at h
  split at h
  · split at h
    · cases h
    · obtain ⟨⟨items, rest'⟩, hitems, h⟩ := Except.bind_eq_ok_iff.mp h
      cases h
      exact Data.wellKeyed_list_iff.mpr (ih.array hitems)
  · split at h
    · cases h
    · obtain ⟨⟨entries, rest'⟩, hentries, h⟩ := Except.bind_eq_ok_iff.mp h
      cases h
      exact ih.inline isKeyed_nil hentries
  · obtain ⟨⟨s, rest'⟩, -, h⟩ := Except.map_eq_ok_iff.mp h
    cases h
    trivial
  · obtain ⟨⟨s, rest'⟩, -, h⟩ := Except.map_eq_ok_iff.mp h
    cases h
    trivial
  · exact wellKeyed_of_readWord (d := .flag true) trivial h
  · exact wellKeyed_of_readWord (d := .flag false) trivial h
  · exact wellKeyed_of_readScalar h

theorem wellKeyed_of_readArray_succ (ih : ReadsKeyed fuel) {items : List Loose}
    (h : readArray (fuel + 1) depth start cs = .ok (items, rest)) : ∀ d ∈ items, d.WellKeyed := by
  cases cs with
  | nil => exact absurd h (by simp [readArray])
  | cons c cs =>
    simp only [readArray] at h
    obtain ⟨cs', -, h⟩ := Except.bind_eq_ok_iff.mp h
    split at h
    · cases h
      simp
    · obtain ⟨⟨item, rest'⟩, hread, h⟩ := Except.bind_eq_ok_iff.mp h
      have hitem : item.WellKeyed := ih.value hread
      obtain ⟨rest'', -, h⟩ := Except.bind_eq_ok_iff.mp h
      split at h
      · obtain ⟨⟨items', rest⟩, hitems, h⟩ := Except.bind_eq_ok_iff.mp h
        cases h
        exact List.forall_mem_cons.mpr ⟨hitem, ih.array hitems⟩
      · cases h
        exact List.forall_mem_singleton.mpr hitem
      · cases h

theorem isKeyed_of_readInline_succ (ih : ReadsKeyed fuel) {entries es : Table Draft}
    (hentries : IsKeyed entries)
    (h : readInline (fuel + 1) depth start entries cs = .ok (es, rest)) : IsKeyed es := by
  cases cs with
  | nil => exact absurd h (by simp [readInline])
  | cons c cs =>
    simp only [readInline] at h
    obtain ⟨cs', -, h⟩ := Except.bind_eq_ok_iff.mp h
    split at h
    · cases h
      exact hentries
    · obtain ⟨⟨key, rest'⟩, -, h⟩ := Except.bind_eq_ok_iff.mp h
      simp only at h
      split at h
      · cases h
      · obtain ⟨⟨d, rest'⟩, hd, h⟩ := Except.bind_eq_ok_iff.mp h
        have hkeyed : IsKeyed ((assign? entries key d).getD entries) :=
          (keeps_assign? key (ih.value hd)).getD hentries
        obtain ⟨rest'', -, h⟩ := Except.bind_eq_ok_iff.mp h
        split at h
        · exact ih.inline hkeyed h
        · cases h
          exact hkeyed
        · cases h

/-- **Values are well-keyed.** -/
theorem readsKeyed (fuel : Nat) : ReadsKeyed fuel := by
  induction fuel with
  | zero =>
    refine ⟨?_, ?_, ?_⟩
    · exact fun h => absurd h (by simp [readValue])
    · exact fun h => absurd h (by simp [readArray])
    · exact fun _ h => absurd h (by simp [readInline])
  | succ fuel ih =>
    exact ⟨wellKeyed_of_readValue_succ ih, wellKeyed_of_readArray_succ ih,
      isKeyed_of_readInline_succ ih⟩

end Values

/-! ## Documents -/

variable {p p' : Progress} {cs rest : List Char}

theorem isKeyed_of_readPair (hp : IsKeyed p.entries) (h : readPair p cs = .ok (p', rest)) :
    IsKeyed p'.entries := by
  unfold readPair at h
  obtain ⟨⟨key, rest'⟩, -, h⟩ := Except.bind_eq_ok_iff.mp h
  simp only at h
  split at h
  · cases h
  · obtain ⟨⟨d, rest'⟩, hd, h⟩ := Except.bind_eq_ok_iff.mp h
    cases h
    have hkeeps := keeps_assign? key ((readsKeyed _).value hd)
    exact (hkeeps.changeAt? p.current).getD hp

/-- What one declaration does. -/
theorem isKeyed_of_readDeclaration (hp : IsKeyed p.entries)
    (h : readDeclaration p cs = .ok (p', rest)) : IsKeyed p'.entries := by
  unfold readDeclaration at h
  split at h
  · unfold readElementHeader at h
    obtain ⟨⟨key, rest'⟩, -, h⟩ := Except.bind_eq_ok_iff.mp h
    obtain ⟨rest'', -, h⟩ := Except.bind_eq_ok_iff.mp h
    split at h
    · rename_i entries hentries
      cases h
      exact keeps_openElement? key _ _ hp hentries
    · cases h
  · unfold readHeader at h
    obtain ⟨⟨key, rest'⟩, -, h⟩ := Except.bind_eq_ok_iff.mp h
    simp only at h
    split at h
    · rename_i entries hentries
      cases h
      exact keeps_openTable? key _ _ hp hentries
    · cases h
  · exact isKeyed_of_readPair hp h

theorem isKeyed_of_readDeclarations {fuel : Nat} (hp : IsKeyed p.entries)
    (h : readDeclarations fuel p cs = .ok p') : IsKeyed p'.entries := by
  induction fuel generalizing p cs with
  | zero =>
    cases h
    exact hp
  | succ fuel ih =>
    rw [readDeclarations] at h
    obtain ⟨cs', -, h⟩ := Except.bind_eq_ok_iff.mp h
    split at h
    · cases h
      exact hp
    · obtain ⟨⟨q, rest⟩, hq, h⟩ := Except.bind_eq_ok_iff.mp h
      obtain ⟨rest', -, h⟩ := Except.bind_eq_ok_iff.mp h
      exact ih (isKeyed_of_readDeclaration hp hq) h

/-- **Parsed documents are well-keyed.** -/
theorem wellKeyed_of_parse {text : String} {source : Option String} {document : Table Value}
    (h : parse text source = .ok document) : WellKeyed (.table document) := by
  unfold parse at h
  split at h
  · cases h
  · rename_i entries hread
    obtain ⟨p, hp, hentries⟩ := Except.bind_eq_ok_iff.mp hread
    cases hentries
    have hkeyed := isKeyed_of_readDeclarations isKeyed_nil hp
    split at h
    · rename_i table htable
      obtain rfl := Except.ok.inj h
      have hnarrow : Loose.narrow (.table (finishEntries p.entries)) = .ok (.table table) :=
        Except.map_eq_ok_iff.mpr ⟨table, htable, rfl⟩
      exact Loose.wellKeyed_of_narrow hnarrow hkeyed
    · cases h

end Bestiary.Toml
