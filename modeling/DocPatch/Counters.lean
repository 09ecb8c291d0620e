/-! Counts of patches and their outcomes. -/

namespace DocPatch

/-- Which half of a patch missed its document: the write, or the read that follows it. -/
inductive Phase where
  | patch
  | get
  deriving DecidableEq, Repr

/-- The word for a phase. -/
def Phase.word : Phase → String
  | .patch => "patch"
  | .get => "get"

/-- Running totals, as machine words. -/
structure Counters where
  patches : UInt64
  operations : UInt64
  missedWrites : UInt64
  missedReads : UInt64
  failures : UInt64
  milliseconds : UInt64
  deriving DecidableEq, Repr

namespace Counters

/-- Nothing counted yet. -/
def zero : Counters := ⟨0, 0, 0, 0, 0, 0⟩

/-- Counts a patch that succeeded with so many operations. -/
def countPatch (operations : Nat) (counters : Counters) : Counters :=
  -- The counters wrap around, as numbers of 64 bits do.
  { counters with
    patches := counters.patches + 1
    operations := counters.operations + UInt64.ofNat operations }

/-- Counts a patch that missed its document. -/
def countMiss (phase : Phase) (counters : Counters) : Counters :=
  match phase with
  | .patch => { counters with missedWrites := counters.missedWrites + 1 }
  | .get => { counters with missedReads := counters.missedReads + 1 }

/-- Counts a patch that failed otherwise. -/
def countFailure (counters : Counters) : Counters :=
  { counters with failures := counters.failures + 1 }

/-- The line that announces a counter. -/
def heading (name : String) : String := "# TYPE " ++ name ++ " counter\n"

/-- One sample of a counter, with its labels. -/
def sample (name labels : String) (value : UInt64) : String :=
  name ++ labels ++ " " ++ toString value.toNat ++ "\n"

/-- The label of a phase. -/
def label (phase : Phase) : String := "\x7bphase=\"" ++ phase.word ++ "\"\x7d"

/-- The totals in the text format of a metrics endpoint. -/
def text (counters : Counters) : String :=
  let plain (name : String) (value : UInt64) := heading name ++ sample name "" value
  plain "patches_total" counters.patches
    ++ plain "patch_operations_total" counters.operations
    -- The misses are one metric with a label for the phase.
    ++ heading "patch_not_found_total"
    ++ sample "patch_not_found_total" (label .patch) counters.missedWrites
    ++ sample "patch_not_found_total" (label .get) counters.missedReads
    ++ plain "patch_failures_total" counters.failures
    ++ plain "patch_duration_ms_sum" counters.milliseconds

end Counters

end DocPatch
