import Absolute.LibJoinFold

/-!
# Merging the states of paths

What the analyzer knows of each variable at the end of several paths, put together by
`MergeValueFlowPaths`, and what it knows of each raw owner by `MergeKeepPaths`. The maps are
functions here: each symbol is merged by itself, from the states it has on the paths in the
order of the paths.
-/

namespace Absolute

namespace Flow

open JoinFold

abbrev SymbolId := UInt32

def InvalidSymbolId : SymbolId := -1

inductive InitializationState where
  | initialized
  | uninitialized
  | maybeUninitialized
deriving DecidableEq, Repr

inductive PointerValidity where
  | notPointer
  | null
  | live
  | deleted
  | expired
  | maybeNull
  | maybeInvalid
  | unknown
deriving DecidableEq, Repr

inductive TaskState where
  | notTask
  | pending
  | awaited
  | maybePending
  | unknown
deriving DecidableEq, Repr

@[ext]
structure ValueFlowState where
  initialization : InitializationState
  pointerValidity : PointerValidity
  pointerOwner : SymbolId
  taskState : TaskState
deriving DecidableEq, Repr

abbrev ValueFlowMap := SymbolId → Option ValueFlowState

inductive KeepState where
  | live
  | deleted
  | maybeDeleted
deriving DecidableEq, Repr

structure KeepLifetime where
  name : List Char
  state : KeepState
deriving DecidableEq, Repr

abbrev KeepLifetimeMap := SymbolId → Option KeepLifetime

/-! ## Two states -/

def mergeInitialization (state next : InitializationState) : InitializationState :=
  if state ≠ next then .maybeUninitialized else state

/-- `dangerousState` and `dangerousNext` -/
def PointerValidity.dangerous (v : PointerValidity) : Bool :=
  v = .deleted ∨ v = .expired ∨ v = .maybeInvalid

/-- `stateInvalid` and `nextInvalid` -/
def PointerValidity.invalid (v : PointerValidity) : Bool :=
  v = .null ∨ v = .deleted ∨ v = .expired ∨ v = .maybeInvalid

/-- Each side of `nullablePair` -/
def PointerValidity.nullable (v : PointerValidity) : Bool :=
  v = .null ∨ v = .live ∨ v = .maybeNull

/-- `previousWasNull` and `nextIsNull` -/
def PointerValidity.soft (v : PointerValidity) : Bool := v = .null ∨ v = .maybeNull

def mergeValidity (state next : PointerValidity) : PointerValidity :=
  if state ≠ next then
    if state.dangerous ∨ next.dangerous then .maybeInvalid
    else if state.nullable ∧ next.nullable then .maybeNull
    else if state.invalid ∨ next.invalid then .maybeInvalid else .unknown
  else state

/-- The owner, by the validities before they are merged. -/
def mergeOwner (previousPointer next : PointerValidity) (stateOwner nextOwner : SymbolId) :
    SymbolId :=
  if stateOwner ≠ nextOwner then
    if previousPointer.soft ∧ stateOwner = InvalidSymbolId then nextOwner
    else if ¬next.soft then InvalidSymbolId else stateOwner
  else stateOwner

def TaskState.isPending (s : TaskState) : Bool := s = .pending ∨ s = .maybePending

def mergeTask (state next : TaskState) : TaskState :=
  if state ≠ next then
    if state.isPending ∨ next.isPending then .maybePending else .unknown
  else state

def mergeKeep (merged state : KeepState) : KeepState :=
  if state ≠ merged then .maybeDeleted else merged

/-- One turn of the loop over the paths. -/
def mergeState (state next : ValueFlowState) : ValueFlowState where
  initialization := mergeInitialization state.initialization next.initialization
  pointerValidity := mergeValidity state.pointerValidity next.pointerValidity
  pointerOwner := mergeOwner state.pointerValidity next.pointerValidity state.pointerOwner
    next.pointerOwner
  taskState := mergeTask state.taskState next.taskState

/-! ## The paths -/

/-- What a path has of a symbol, and the base where it has nothing. -/
def stateAt (merged : ValueFlowState) (id : SymbolId) (path : ValueFlowMap) : ValueFlowState :=
  (path id).getD merged

def mergeValueFlowPaths (base : ValueFlowMap) (paths : List ValueFlowMap) : ValueFlowMap :=
  fun id => (base id).map fun merged =>
    foldFrom mergeState merged (paths.map (stateAt merged id))

def keepAt (lifetime : KeepLifetime) (id : SymbolId) (path : KeepLifetimeMap) : KeepState :=
  ((path id).getD lifetime).state

def mergeKeepPaths (base : KeepLifetimeMap) (paths : List KeepLifetimeMap) : KeepLifetimeMap :=
  fun id => (base id).map fun lifetime =>
    { lifetime with state := foldFrom mergeKeep lifetime.state (paths.map (keepAt lifetime id)) }

end Flow

end Absolute
