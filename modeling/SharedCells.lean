import SharedCells.Backoff
import SharedCells.Cell.Crew
import SharedCells.Cell.Scalar
import SharedCells.Cell.Variant
import SharedCells.Order.Name
import SharedCells.Registry.Session
import SharedCells.Slot.Machine
import SharedCells.Workload
import SharedCells.Proofs.Registry.Debts
import SharedCells.Proofs.Heap
import SharedCells.Proofs.Slot.Handshake
import SharedCells.Proofs.Table
import SharedCells.Proofs.Slot.Ledger
import SharedCells.Proofs.Slot.Ways
import SharedCells.Proofs.Slot.Transfer
import SharedCells.Proofs.Slot.Soundness
import SharedCells.Proofs.Slot.Debtors
import SharedCells.Proofs.Slot.Effects
import SharedCells.Proofs.Slot.Moves
import SharedCells.Proofs.Slot.Safety
import SharedCells.Proofs.Slot.Moorings
import SharedCells.Proofs.Slot.Lifetimes
import SharedCells.Proofs.Slot.Frames
import SharedCells.Proofs.Slot.Rounds
import SharedCells.Proofs.Slot.Verdict
import SharedCells.Proofs.Registry.Deeds
import SharedCells.Proofs.Registry.Conservation
import SharedCells.Proofs.Registry.Custody
import SharedCells.Proofs.Registry.Path
import SharedCells.Proofs.Registry.Book
import SharedCells.Proofs.Registry.Calls
import SharedCells.Proofs.Slot.Cells
import SharedCells.Proofs.Slot.Solo
import SharedCells.Proofs.Slot.Scene
import SharedCells.Proofs.Slot.Parts
import SharedCells.Proofs.Slot.Reading
import SharedCells.Proofs.Slot.Displacing
import SharedCells.Proofs.Slot.Naming
import SharedCells.Proofs.Slot.Operations
import SharedCells.Proofs.Slot.Variables
import SharedCells.Proofs.Cell.Chain
import SharedCells.Proofs.Slot.Publications
import SharedCells.Proofs.Slot.Progress
import SharedCells.Proofs.Slot.Payers
import SharedCells.Proofs.Slot.Succession
import SharedCells.Proofs.Registry.Roster
import SharedCells.Proofs.Registry.Claims
import SharedCells.Proofs.Registry.Growth
import SharedCells.Proofs.Cell.Typed
import SharedCells.Proofs.Slot.Arrangement
import SharedCells.Proofs.Slot.Solitude
import SharedCells.Proofs.Slot.Dealings
import SharedCells.Proofs.Slot.Course
import SharedCells.Proofs.Slot.Passages
import SharedCells.Proofs.Slot.Ownership
import SharedCells.Proofs.Slot.Lapses
import SharedCells.Proofs.Slot.Laps
import SharedCells.Proofs.Slot.Spares
import SharedCells.Proofs.Slot.Lasting
import SharedCells.Proofs.Slot.Twins
import SharedCells.Proofs.Slot.Strengths
import SharedCells.Proofs.Cell.Contents
import SharedCells.Proofs.Cell.Interference
import SharedCells.Proofs.Slot.Refusals
import SharedCells.Proofs.Slot.Heeding
import SharedCells.Proofs.Slot.Consultations
import SharedCells.Proofs.Backoff
import SharedCells.Proofs.Registry.Payments
import SharedCells.Proofs.Slot.Cleanness
import SharedCells.Proofs.Spelling
import SharedCells.Proofs.Cell.Images
import SharedCells.Proofs.Cell.Words
import SharedCells.Proofs.Registry.Levels
import SharedCells.Proofs.Registry.Stack
import SharedCells.Proofs.Registry.Sweeps
