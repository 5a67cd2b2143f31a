import Bestiary.Schema.Basic

/-!
# Induction on schemas

Schemas are built from lists of schemas and of fields. `Schema.induction` proves a statement of all
schemas from that of the parts.
-/

namespace Bestiary.Schema

/-- **Induction on schemas**: what holds of leaves, and of a schema with parts if it holds of the
parts, holds of all schemas. -/
@[elab_as_elim]
theorem induction {motive : Schema → Prop} (text : motive .text) (number : motive .number)
    (flag : motive .flag) (natural : ∀ most, motive (.natural most)) (mobRef : motive .mobRef)
    (oneOf : ∀ names, motive (.oneOf names))
    (pair : ∀ first second, motive first → motive second → motive (.pair first second))
    (list : ∀ item, motive item → motive (.list item))
    (dictionary : ∀ entry, motive entry → motive (.dictionary entry))
    (record : ∀ fields : List (String × Presence × Schema),
      (∀ f ∈ fields, motive f.2.2) → motive (.record fields))
    (variants : ∀ alternatives : List Schema,
      (∀ s ∈ alternatives, motive s) → motive (.variants alternatives))
    (anything : motive .anything) (s : Schema) : motive s := by
  refine @Schema.rec motive (fun fields => ∀ f ∈ fields, motive f.2.2)
    (fun alternatives => ∀ s ∈ alternatives, motive s) (fun f => motive f.2.2)
    (fun f => motive f.2) text number flag natural mobRef oneOf pair list dictionary record
    variants anything ?_ ?_ ?_ ?_ ?_ ?_ s
  · exact fun f hf => absurd hf List.not_mem_nil
  · exact fun f fields hf hfields => List.forall_mem_cons.mpr ⟨hf, hfields⟩
  · exact fun s hs => absurd hs List.not_mem_nil
  · exact fun s alternatives hs halternatives => List.forall_mem_cons.mpr ⟨hs, halternatives⟩
  · exact fun key f hf => hf
  · exact fun presence s hs => hs

end Bestiary.Schema
