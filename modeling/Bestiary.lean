import Bestiary.Behavior.Action
import Bestiary.Behavior.Command
import Bestiary.Behavior.Compile
import Bestiary.Behavior.Layout
import Bestiary.Behavior.Node
import Bestiary.Behavior.Plan
import Bestiary.Behavior.Report
import Bestiary.CommandLine.Arguments
import Bestiary.CommandLine.Commands
import Bestiary.CommandLine.Config
import Bestiary.CommandLine.Program
import Bestiary.CommandLine.Run
import Bestiary.Data.Basic
import Bestiary.Data.Display
import Bestiary.Data.Equal
import Bestiary.Data.FieldPath
import Bestiary.Data.Merge
import Bestiary.Data.Narrow
import Bestiary.Data.Table
import Bestiary.Editor.EditOp
import Bestiary.Editor.History
import Bestiary.Editor.Session
import Bestiary.Editor.StatusLog
import Bestiary.Json.Reader
import Bestiary.Json.Writer
import Bestiary.Main
import Bestiary.Mob.Check
import Bestiary.Mob.Definition
import Bestiary.Mob.Name
import Bestiary.Mob.Problem
import Bestiary.Mob.Registry
import Bestiary.Mob.Resolve
import Bestiary.Number.Basic
import Bestiary.Number.Decimal
import Bestiary.Proofs.Behavior.Codec
import Bestiary.Proofs.Behavior.Command
import Bestiary.Proofs.Behavior.Findings
import Bestiary.Proofs.Behavior.Node
import Bestiary.Proofs.Behavior.Order
import Bestiary.Proofs.Behavior.Outline
import Bestiary.Proofs.Behavior.Place
import Bestiary.Proofs.Behavior.Reordered
import Bestiary.Proofs.Behavior.Running
import Bestiary.Proofs.Behavior.Written
import Bestiary.Proofs.CommandLine.Edit
import Bestiary.Proofs.CommandLine.Placement
import Bestiary.Proofs.CommandLine.Program
import Bestiary.Proofs.CommandLine.Sources
import Bestiary.Proofs.CommandLine.Tree
import Bestiary.Proofs.CommandLine.TypedPath
import Bestiary.Proofs.Data.Equal
import Bestiary.Proofs.Data.Except
import Bestiary.Proofs.Data.Induction
import Bestiary.Proofs.Data.Keyed
import Bestiary.Proofs.Data.Layering
import Bestiary.Proofs.Data.Lookup
import Bestiary.Proofs.Data.Merge
import Bestiary.Proofs.Data.Ordered
import Bestiary.Proofs.Data.Reordered
import Bestiary.Proofs.Data.Sorted
import Bestiary.Proofs.Data.Table
import Bestiary.Proofs.Data.Within
import Bestiary.Proofs.Editor.Keyed
import Bestiary.Proofs.Editor.Messages
import Bestiary.Proofs.Editor.Modified
import Bestiary.Proofs.Editor.Patch
import Bestiary.Proofs.Editor.Preview
import Bestiary.Proofs.Editor.Returns
import Bestiary.Proofs.Editor.Run
import Bestiary.Proofs.Editor.Save
import Bestiary.Proofs.Editor.Snapshots
import Bestiary.Proofs.Editor.Timeline
import Bestiary.Proofs.Editor.Validity
import Bestiary.Proofs.Json.Keyed
import Bestiary.Proofs.Mob.Account
import Bestiary.Proofs.Mob.Check
import Bestiary.Proofs.Mob.Content
import Bestiary.Proofs.Mob.KeyOrder
import Bestiary.Proofs.Mob.Layers
import Bestiary.Proofs.Mob.Registry
import Bestiary.Proofs.Mob.ReorderedCheck
import Bestiary.Proofs.Mob.Repeated
import Bestiary.Proofs.Mob.Resolve
import Bestiary.Proofs.Mob.UnknownField
import Bestiary.Proofs.Mob.Wordable
import Bestiary.Proofs.Mob.Written
import Bestiary.Proofs.Number.Decimal
import Bestiary.Proofs.Number.Digits
import Bestiary.Proofs.Number.Integer
import Bestiary.Proofs.Number.Rounding
import Bestiary.Proofs.Schema.Accepts
import Bestiary.Proofs.Schema.Induction
import Bestiary.Proofs.Schema.Kept
import Bestiary.Proofs.Schema.Record
import Bestiary.Proofs.Schema.Reordered
import Bestiary.Proofs.Schema.Reread
import Bestiary.Proofs.Schema.Same
import Bestiary.Proofs.Schema.UnknownKey
import Bestiary.Proofs.Store.Below
import Bestiary.Proofs.Store.Collect
import Bestiary.Proofs.Store.Deletion
import Bestiary.Proofs.Store.Disk
import Bestiary.Proofs.Store.Kept
import Bestiary.Proofs.Store.MobFile
import Bestiary.Proofs.Store.PathText
import Bestiary.Proofs.Store.Shape
import Bestiary.Proofs.Text.Cut
import Bestiary.Proofs.Text.Digits
import Bestiary.Proofs.Text.Order
import Bestiary.Proofs.Text.Split
import Bestiary.Proofs.Toml.Draft
import Bestiary.Proofs.Toml.Key
import Bestiary.Proofs.Toml.Keyed
import Bestiary.Proofs.Toml.NumberText
import Bestiary.Proofs.Toml.Numeral
import Bestiary.Proofs.Toml.QuotedText
import Bestiary.Proofs.Toml.Reader
import Bestiary.Proofs.Toml.Reads
import Bestiary.Proofs.Toml.Refused
import Bestiary.Proofs.Toml.RoundTrip
import Bestiary.Proofs.Toml.Section
import Bestiary.Proofs.Toml.Value
import Bestiary.Proofs.Toml.Written
import Bestiary.Proofs.Tree.Address
import Bestiary.Proofs.Tree.CommandEdit
import Bestiary.Proofs.Tree.Edit
import Bestiary.Proofs.Tree.Inverse
import Bestiary.Proofs.Tree.Keyed
import Bestiary.Proofs.Tree.Listing
import Bestiary.Proofs.Tree.Local
import Bestiary.Proofs.Tree.Place
import Bestiary.Proofs.Tree.Sound
import Bestiary.Schema.Basic
import Bestiary.Schema.Issue
import Bestiary.Schema.Record
import Bestiary.Store.Disk
import Bestiary.Store.MobFile
import Bestiary.Store.PathText
import Bestiary.Text.Digits
import Bestiary.Text.Split
import Bestiary.Text.Units
import Bestiary.Text.Utf8
import Bestiary.Toml.Document
import Bestiary.Toml.Draft
import Bestiary.Toml.Fault
import Bestiary.Toml.Key
import Bestiary.Toml.Moment
import Bestiary.Toml.Numeral
import Bestiary.Toml.QuotedText
import Bestiary.Toml.Reader
import Bestiary.Toml.Writer
import Bestiary.Tree.CommandEdit
import Bestiary.Tree.Edit
import Bestiary.Tree.Operation
import Bestiary.Tree.Path
