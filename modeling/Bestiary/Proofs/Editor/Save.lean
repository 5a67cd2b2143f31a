import Bestiary.Proofs.Editor.Keyed
import Bestiary.Proofs.Editor.Snapshots
import Bestiary.Proofs.Editor.Validity
import Bestiary.Proofs.Schema.Same
import Bestiary.Proofs.Toml.Refused

/-!
# Loading what was saved

Every document of a session is a table without a key twice. The text of such a table is read back as
the table, unless a number in it is written as a numeral that is refused; the validation before a
save does not look for such numbers. A mob that could be saved has passed the schema, so it passes
again where its text is read back.

* `OpenDocument.LoadsFrom` says that a text can be loaded as a document.
* `Session.saveRecorded_spec`: what a save that succeeds has handed to the writer.
* `Session.save_loads`: saved documents can be loaded, where integers past the safe ones are written
  with a decimal place.
* `Session.save_loads_iff`: which saved documents can be loaded, where numbers are written as
  `Number.text` writes them.
-/

namespace Bestiary

open Data (WellKeyed)

/-! ## What can be loaded -/

namespace OpenDocument

/-- The text is parsed to a table that is the same as the document; of a mob that table is also read
as a definition. -/
def LoadsFrom (d : OpenDocument) (text : String) : Prop :=
  ∃ parsed, Toml.parse text none = .ok parsed ∧
    Value.same (.table parsed) (.table d.current) = true ∧
    (d.kind = .mob → ∀ entity, ∃ m, Definition.read entity (.table parsed) = .ok m)

/-- A valid document can be loaded from its text, if its numbers are read as they are written. -/
theorem IsValid.loadsFrom {d : OpenDocument} {numeral : Number → String} {text : String}
    (hvalid : d.IsValid) (hkeyed : WellKeyed (.table d.current))
    (hspelled : Toml.Spelled numeral (.table d.current))
    (htext : Toml.writeWith numeral d.current = .ok text) : d.LoadsFrom text := by
  obtain ⟨parsed, hparsed, hparsedKeyed, hsame⟩ :=
    Toml.parse_writeWith hkeyed hspelled htext none
  refine ⟨parsed, hparsed, hsame, fun hkind entity => ?_⟩
  rw [Definition.read_ok_iff]
  have hrefusal := refusal?_eq_none_iff.mp (isValid_iff.mp hvalid).2
  simp only [hkind] at hrefusal
  exact Schema.blind Definition.schema _ _ hkeyed hparsedKeyed hsame hrefusal

end OpenDocument

namespace Session

/-! ## What is saved -/

/-- The writer, with the texts that it is handed kept. -/
def recording {m : Type → Type} [Monad m] (write : (path text : String) → m (Except Thrown Unit))
    (path text : String) : StateT (List String) m (Except Thrown Unit) := fun texts => do
  let written ← write path text
  pure (written, texts ++ [text])

/-- What comes of a save with a writer that has a state, with the texts that the writer was
handed. -/
def saveRecorded {σ : Type} (s : Session) (numeral : Number → String)
    (write : (path text : String) → StateM σ (Except Thrown Unit)) (state : σ) :
    Except Escape (Bool × Session) × List String :=
  (Id.run (((s.saveCatching numeral (recording write)).run []).run state)).1

variable {σ : Type} {s : Session} {numeral : Number → String}
  {write : (path text : String) → StateM σ (Except Thrown Unit)}

/-- A save calls its writer once, with what comes before it done, or not at all. -/
theorem saveRecorded_eq (s : Session) (numeral : Number → String)
    (write : (path text : String) → StateM σ (Except Thrown Unit)) (state : σ) :
    s.saveRecorded numeral write state =
      match s.attempt numeral with
      | .error result => (result.mapError .verdict, [])
      | .ok (d, text) =>
        ((caught ((write d.path text).run state).1).map (s.written d), [text]) := by
  unfold saveRecorded
  rw [saveCatching_eq]
  cases s.attempt numeral with
  | error result => rfl
  | ok handed => rfl

/-- **What a save that succeeds has done**: the document is valid, and its text is all that the
writer was handed. -/
theorem saveRecorded_spec {state : σ} {texts : List String} {now : Session}
    (h : s.saveRecorded numeral write state = (.ok (true, now), texts)) :
    ∃ d text, s.document = some d ∧ d.IsValid ∧ Toml.writeWith numeral d.current = .ok text ∧
      texts = [text] := by
  rw [saveRecorded_eq] at h
  cases ha : s.attempt numeral with
  | error result =>
    simp only [ha] at h
    rcases attempt_error ha with ⟨e, rfl⟩ | ⟨message, rfl⟩ <;>
      exact absurd h (by simp [fail, Except.mapError])
  | ok handed =>
    obtain ⟨d, text⟩ := handed
    simp only [ha] at h
    obtain ⟨hd, hvalid, htext⟩ := attempt_eq_ok_iff.mp ha
    rw [validate, hd] at hvalid
    exact ⟨d, text, hd, hvalid, htext, (Prod.mk.inj h).2.symm⟩

/-- What a save that succeeds has done after operations on a document that was opened. Documents
that were parsed are well-keyed by `Toml.wellKeyed_of_parse`, and the values in a script are by
`EditOp.isKeyed_of_readAll`. -/
theorem exists_saved (s : Session) (path : String) (kind : DocumentKind)
    (base : Option (Table Value)) {document : Table Value} (hdocument : WellKeyed (.table document))
    {steps : List SessionStep} (hsteps : ∀ x ∈ steps, x.IsKeyed) {state : σ} {texts : List String}
    {now : Session}
    (hsave : ((s.open path kind base document).run steps).saveRecorded numeral write state =
      (.ok (true, now), texts)) :
    ∃ d text, ((s.open path kind base document).run steps).document = some d ∧ d.kind = kind ∧
      texts = [text] ∧ WellKeyed (.table d.current) ∧ d.IsValid ∧
      Toml.writeWith numeral d.current = .ok text := by
  have hopened : (s.open path kind base document).document =
      some (.opened path kind base document) := rfl
  obtain ⟨hall, d, hd, hfile⟩ := run_allHold steps (fun x hx => keeps_wellKeyed (hsteps x hx))
    hopened (AllHold.open s path kind base hdocument)
  obtain ⟨d', text, hd', hvalid, htext, htexts⟩ := saveRecorded_spec hsave
  obtain rfl : d = d' := Option.some.inj (hd.symm.trans hd')
  exact ⟨d, text, hd, hfile.kind_eq, htexts, hall.current d hd, hvalid, htext⟩

/-- **Saved documents can be loaded**, where integers past the safe ones are written with a decimal
place. -/
theorem save_loads (s : Session) (path : String) (kind : DocumentKind)
    (base : Option (Table Value)) {document : Table Value} (hdocument : WellKeyed (.table document))
    (steps : List SessionStep) (hsteps : ∀ x ∈ steps, x.IsKeyed) {state : σ} {texts : List String}
    {now : Session}
    (hsave : ((s.open path kind base document).run steps).saveRecorded Toml.numberText write state =
      (.ok (true, now), texts)) :
    ∃ d text, ((s.open path kind base document).run steps).document = some d ∧ d.kind = kind ∧
      texts = [text] ∧ d.LoadsFrom text := by
  obtain ⟨d, text, hd, hkind, htexts, hkeyed, hvalid, htext⟩ :=
    exists_saved s path kind base hdocument hsteps hsave
  have hspelled : Toml.Spelled Toml.numberText (.table d.current) := fun x _ =>
    Toml.spellsNumber_numberText x
  exact ⟨d, text, hd, hkind, htexts, hvalid.loadsFrom hkeyed hspelled htext⟩

/-- **Which saved documents can be loaded**, where numbers are written as `Number.text` writes them.
After any operations on a document that was opened, a save that succeeds has handed one text to its
writer. The document can be loaded from that text iff none of its numbers is an integer past the
safe ones that is written without an exponent; otherwise the text is refused for such a number. -/
theorem save_loads_iff (hnumeral : ∀ x, numeral x = x.text) (s : Session) (path : String)
    (kind : DocumentKind) (base : Option (Table Value)) {document : Table Value}
    (hdocument : WellKeyed (.table document)) (steps : List SessionStep)
    (hsteps : ∀ x ∈ steps, x.IsKeyed) {state : σ} {texts : List String} {now : Session}
    (hsave : ((s.open path kind base document).run steps).saveRecorded numeral write state =
      (.ok (true, now), texts)) :
    ∃ d text, ((s.open path kind base document).run steps).document = some d ∧ d.kind = kind ∧
      texts = [text] ∧
      (d.LoadsFrom text ↔ ∀ x, (Data.table d.current : Value).HasNumber x → ¬x.IsLossy) ∧
      (¬d.LoadsFrom text →
        ∃ line, Toml.parse text none = .error ⟨.malformed .lossyInteger line, none⟩) := by
  obtain ⟨d, text, hd, hkind, htexts, hkeyed, hvalid, htext⟩ :=
    exists_saved s path kind base hdocument hsteps hsave
  obtain rfl : numeral = Number.text := funext hnumeral
  refine ⟨d, text, hd, hkind, htexts, ?_⟩
  by_cases hlossy : ∃ x, (Data.table d.current : Value).HasNumber x ∧ x.IsLossy
  · obtain ⟨x, hx, hxlossy⟩ := hlossy
    obtain ⟨line, hrefused⟩ := Toml.parse_writeWith_lossy Toml.writesNumerals_text hkeyed
      ⟨x, hx, Toml.spellsLossy_text hxlossy⟩ htext none
    have hnot : ¬d.LoadsFrom text := by
      rintro ⟨parsed, hparsed, -⟩
      rw [hrefused] at hparsed
      exact absurd hparsed (by simp)
    exact ⟨iff_of_false hnot fun hsafe => hsafe x hx hxlossy, fun _ => ⟨line, hrefused⟩⟩
  · have hsafe (x : Number) (hx : (Data.table d.current : Value).HasNumber x) : ¬x.IsLossy :=
      fun hxlossy => hlossy ⟨x, hx, hxlossy⟩
    have hspelled : Toml.Spelled Number.text (.table d.current) := fun x hx =>
      ((Toml.spells_text x).resolve_left fun h => hsafe x hx h.1).2
    have hloads : d.LoadsFrom text := hvalid.loadsFrom hkeyed hspelled htext
    exact ⟨iff_of_true hloads hsafe, fun hnot => absurd hloads hnot⟩

/-- A small mob, with commands of no known form put into its tree and its name changed, saved by a
writer that counts its calls. -/
theorem save_loads_iff_orbit :
    let write (_ _ : String) : StateM Nat (Except Thrown Unit) := do
      modify (· + 1)
      pure (.ok ())
    let now := ((start 5).open "mobs/m.mob" .mob none
      [("name", .text "m"), ("behavior", .table [("type", .text "Orbit")])]).run
        [.editBehavior "note" fun _ => .ok (.table [("type", .text "Orbit"),
            ("odd key", .list [.flag true, .table [("a.b", .text "\n")]])]),
          .edit "name" fun t => .ok (.table (t.set "name" (.text "moon")))]
    ∃ texts after, now.saveRecorded Number.text write 0 = (.ok (true, after), texts) ∧
      ∃ d text, now.document = some d ∧ d.kind = .mob ∧ texts = [text] ∧
        (d.LoadsFrom text ↔ ∀ x, (Data.table d.current : Value).HasNumber x → ¬x.IsLossy) ∧
        (¬d.LoadsFrom text →
          ∃ line, Toml.parse text none = .error ⟨.malformed .lossyInteger line, none⟩) := by
  intro write now
  have hsave : ∃ texts after, now.saveRecorded Number.text write 0 = (.ok (true, after), texts) :=
    ⟨_, _, rfl⟩
  obtain ⟨texts, after, hsave⟩ := hsave
  refine ⟨texts, after, hsave,
    save_loads_iff (fun _ => rfl) (start 5) "mobs/m.mob" .mob none ?_ _ ?_ hsave⟩
  · simp [WellKeyed, Data.EntriesWellKeyed, Table.keys]
  · rw [List.forall_mem_cons, List.forall_mem_singleton]
    refine ⟨fun _ w _ hw => ?_, fun t v ht hv => ?_⟩
    · cases hw
      simp [WellKeyed, Data.EntriesWellKeyed, Data.ItemsWellKeyed, Table.keys]
    · cases hv
      exact ht.set (d := .text "moon") trivial "name"

/-- A mob with `z_level = 1e16` is valid and is saved, but its text cannot be loaded. -/
theorem not_loadsFrom_moth :
    let write (_ _ : String) : StateM Unit (Except Thrown Unit) := pure (.ok ())
    let opened := (start 5).open "mobs/moth.mob" .mob none
      [("name", .text "moth"), ("z_level", .number (.ofDecimal 1 16))]
    let text := "name = \"moth\"\nz_level = 10000000000000000\n"
    ∃ d after, opened.document = some d ∧
      opened.saveRecorded Number.text write () = (.ok (true, after), [text]) ∧
      ¬d.LoadsFrom text := by
  intro write opened text
  have hsave : ∃ texts after, opened.saveRecorded Number.text write () =
      (.ok (true, after), texts) := ⟨_, _, rfl⟩
  obtain ⟨texts, after, hsave⟩ := hsave
  have htexts : (opened.saveRecorded Number.text write ()).2 = [text] := by decide +kernel
  have hrefused : (Toml.parse text none).toOption = none := by
    have hnone : (Toml.parse text none).toOption.isNone = true := by decide +kernel
    exact Option.isNone_iff_eq_none.mp hnone
  simp only [hsave] at htexts
  refine ⟨_, after, rfl, by rw [hsave, htexts], ?_⟩
  rintro ⟨parsed, hparsed, -⟩
  rw [hparsed] at hrefused
  exact absurd hrefused (by simp [Except.toOption])

end Session

end Bestiary
