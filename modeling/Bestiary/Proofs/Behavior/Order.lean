import Bestiary.Behavior.Report
import Bestiary.Proofs.Behavior.Running
import Bestiary.Proofs.Data.Table

/-!
# What an order says of its command

A command is carried out as an order, and an order is handed on as a table. Neither step leaves out
anything of the command: the name in the table tells the kind of command, keys that are absent are
written null, and nested commands keep their number and their order.

* `Order.action_eq_of_toData`: tables of orders that are equal name the same kind of command.
* `Order.toData_inj` and `Command.order_inj`: orders and commands that are treated alike are equal.
* `Command.order_faithful` says both of a command and of its table.
-/

namespace Bestiary

theorem Action.name_inj {a b : Action} (h : a.name = b.name) : a = b :=
  Option.some.inj (by rw [← ofName?_name a, h, ofName?_name b])

theorem Data.texts_inj {ε : Type} {l m : List String} (h : (texts l : Data ε) = texts m) : l = m :=
  List.map_injective_iff.mpr (fun _ _ => Data.text.inj) (Data.list.inj h)

/-! ## Orders as tables -/

namespace Order

/-- The kind of command that an order carries out. -/
def action : Order → Action
  | .simple a => .simple a
  | .moveTo _ => .moveTo
  | .spawn what _ => .spawn what
  | .doForTime _ => .doForTime
  | .transmit .. => .transmit
  | .rotateJoints _ => .rotateJoints

/-- The table of an order starts with the name of the command. -/
theorem exists_toData_eq (o : Order) :
    ∃ params, o.toData = .table (("type", .text o.action.name) :: params) := by
  cases o <;> exact ⟨_, by rw [toData]; rfl⟩

theorem action_eq_of_toData {o u : Order} (h : o.toData = u.toData) : o.action = u.action := by
  obtain ⟨params, ho⟩ := o.exists_toData_eq
  obtain ⟨params', hu⟩ := u.exists_toData_eq
  rw [ho, hu] at h
  have hentries := Data.table.inj h
  exact Action.name_inj (Data.text.inj (Prod.mk.inj (List.cons.inj hentries).1).2)

/-- Keys that are absent are told apart from keys that are empty. -/
theorem orNull_texts_inj {keys keys' : Option (List String)}
    (h : orNull Data.texts keys = orNull Data.texts keys') : keys = keys' := by
  cases keys with
  | none =>
    cases keys' with
    | none => rfl
    | some _ => cases h
  | some _ =>
    cases keys' with
    | none => cases h
    | some _ => rw [Data.texts_inj h]

mutual

/-- **The table of an order determines it.** -/
theorem toData_inj : ∀ {o u : Order}, o.toData = u.toData → o = u
  | .simple a, u, h => by
    have haction := action_eq_of_toData h
    cases u with
    | simple b => rw [Action.simple.inj haction]
    | _ => cases haction
  | .moveTo p, u, h => by
    have haction := action_eq_of_toData h
    cases u with
    | moveTo q =>
      obtain ⟨x, y⟩ := p
      obtain ⟨x', y'⟩ := q
      simpa [toData] using h
    | _ => cases haction
  | .spawn what keys, u, h => by
    have haction := action_eq_of_toData h
    cases u with
    | spawn what' keys' =>
      have hkeys : orNull Data.texts keys = orNull Data.texts keys' := by
        simp only [toData, Data.table.injEq, List.cons.injEq, Prod.mk.injEq, true_and] at h
        exact h.2.1
      rw [Action.spawn.inj haction, orNull_texts_inj hkeys]
    | _ => cases haction
  | .doForTime seconds, u, h => by
    have haction := action_eq_of_toData h
    cases u with
    | doForTime seconds' => simpa [toData] using h
    | _ => cases haction
  | .transmit mobType orders, u, h => by
    have haction := action_eq_of_toData h
    cases u with
    | transmit mobType' orders' =>
      simp only [toData, Data.table.injEq, List.cons.injEq, Prod.mk.injEq, true_and,
        Data.text.injEq, Data.list.injEq, and_true] at h
      rw [h.1, listToData_inj h.2]
    | _ => cases haction
  | .rotateJoints keys, u, h => by
    have haction := action_eq_of_toData h
    cases u with
    | rotateJoints keys' =>
      simp only [toData, Data.table.injEq, List.cons.injEq, Prod.mk.injEq, true_and,
        and_true] at h
      rw [Data.texts_inj h]
    | _ => cases haction

/-- So do the tables of several orders. -/
theorem listToData_inj : ∀ {orders orders' : List Order},
    listToData orders = listToData orders' → orders = orders'
  | [], [], _ => rfl
  | [], _ :: _, h => by cases h
  | _ :: _, [], h => by cases h
  | o :: orders, u :: orders', h => by
    obtain ⟨hhead, htail⟩ := List.cons.inj h
    rw [toData_inj hhead, listToData_inj htail]

end

end Order

/-! ## Commands as orders -/

namespace Command

mutual

/-- **The order of a command determines it.** -/
theorem order_inj : ∀ {a b : Command}, a.order = b.order → a = b
  | .simple _, b, h => by cases b <;> simp_all [order]
  | .moveTo .., b, h => by cases b <;> simp_all [order]
  | .spawn .., b, h => by cases b <;> simp_all [order]
  | .doForTime _, b, h => by cases b <;> simp_all [order]
  | .transmit mobType commands, b, h => by
    cases b with
    | transmit mobType' commands' =>
      obtain ⟨rfl, horders⟩ := Order.transmit.inj h
      rw [orders_inj horders]
    | _ => cases h
  | .rotateJoints _, b, h => by cases b <;> simp_all [order]

/-- So do the orders of several commands. -/
theorem orders_inj : ∀ {commands commands' : List Command},
    orders commands = orders commands' → commands = commands'
  | [], [], _ => rfl
  | [], _ :: _, h => by cases h
  | _ :: _, [], h => by cases h
  | a :: commands, b :: commands', h => by
    obtain ⟨hhead, htail⟩ := List.cons.inj h
    rw [order_inj hhead, orders_inj htail]

end

/-- **Nothing of a command is lost on the way to its order**, nor on the way to the table of the
order: both are equal just for equal commands. In particular keys that are absent, keys that are
empty and all others are told apart, and nested commands become as many orders, one for each in
their place. -/
theorem order_faithful :
    (∀ a b : Command, a.order = b.order ↔ a = b) ∧
      (∀ a b : Command, a.order.toData = b.order.toData ↔ a = b) ∧
      (∀ what keys keys', (spawn what keys).order.toData = (spawn what keys').order.toData ↔
        keys = keys') ∧
      ∀ mobType commands, (transmit mobType commands).order =
        .transmit mobType (commands.map order) := by
  have hdata : ∀ a b : Command, a.order.toData = b.order.toData ↔ a = b := by
    refine fun a b => ⟨fun h => order_inj (Order.toData_inj h), ?_⟩
    rintro rfl
    rfl
  refine ⟨fun a b => ⟨order_inj, fun h => by rw [h]⟩, hdata, fun what keys keys' => ?_,
    fun mobType commands => ?_⟩
  · rw [hdata, spawn.injEq, eq_self, true_and]
  · rw [order, orders_eq]

end Command

end Bestiary
