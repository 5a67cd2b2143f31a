import Bestiary.Proofs.Data.Table

/-!
# Induction on data

Data is built from lists and tables of data. `Data.induction` proves a statement of all data from
that of the parts.
-/

namespace Bestiary.Data

variable {ε : Type}

/-- **Induction on data**: what holds of leaves, of a list if it holds of its items, and of a table
if it holds of its entries, holds of all data. -/
@[elab_as_elim]
theorem induction {motive : Data ε → Prop} (text : ∀ s, motive (.text s))
    (number : ∀ n, motive (.number n)) (flag : ∀ b, motive (.flag b))
    (list : ∀ items, (∀ d ∈ items, motive d) → motive (.list items))
    (table : ∀ entries : Table (Data ε), (∀ e ∈ entries, motive e.2) → motive (.table entries))
    (alien : ∀ e, motive (.alien e)) (d : Data ε) : motive d := by
  refine @Data.rec ε motive (fun items => ∀ d ∈ items, motive d)
    (fun entries => ∀ e ∈ entries, motive e.2) (fun e => motive e.2)
    text number flag list table alien ?_ ?_ ?_ ?_ ?_ d
  · intro d hd
    exact absurd hd List.not_mem_nil
  · intro d items hd hitems x hx
    rcases List.mem_cons.mp hx with rfl | hx
    · exact hd
    · exact hitems x hx
  · intro e he
    exact absurd he List.not_mem_nil
  · intro e entries he hentries x hx
    rcases List.mem_cons.mp hx with rfl | hx
    · exact he
    · exact hentries x hx
  · intro k d hd
    exact hd

end Bestiary.Data
