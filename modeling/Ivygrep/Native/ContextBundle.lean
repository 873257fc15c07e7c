import Mathlib.Data.List.Sort
import Ivygrep.Native.TestEdges
import Ivygrep.Native.TokenBudget

/-!
# Context bundles

`assemble_bundle` of `context.rs`: it orders the candidates, takes items while the budget lasts,
and drops items from the end of the rendered text until it fits.
-/

namespace Ivygrep.Native

inductive ContextRole where
  | primary
  | definition
  | dependency
  | dependent
  | caller
  | reference
  | test
  | config
  | documentation
  | related
deriving DecidableEq, Repr

def ContextRole.label : ContextRole → Str
  | .primary => "primary".toList
  | .definition => "definition".toList
  | .dependency => "dependency".toList
  | .dependent => "dependent".toList
  | .caller => "caller".toList
  | .reference => "reference".toList
  | .test => "test".toList
  | .config => "config".toList
  | .documentation => "documentation".toList
  | .related => "related".toList

inductive ContextChangeSource where
  | since
  | staged
  | worktree
  | untracked
deriving DecidableEq, Repr

def ContextChangeSource.label : ContextChangeSource → Str
  | .since => "since".toList
  | .staged => "staged".toList
  | .worktree => "worktree".toList
  | .untracked => "untracked".toList

inductive ContextChangeStatus where
  | added
  | modified
  | deleted
  | renamed
  | copied
  | typeChanged
  | unmerged
  | unknown
deriving DecidableEq, Repr

def ContextChangeStatus.label : ContextChangeStatus → Str
  | .added => "added".toList
  | .modified => "modified".toList
  | .deleted => "deleted".toList
  | .renamed => "renamed".toList
  | .copied => "copied".toList
  | .typeChanged => "type changed".toList
  | .unmerged => "unmerged".toList
  | .unknown => "changed".toList

structure ContextChange where
  filePath : SourcePath
  oldPath : Option SourcePath
  status : ContextChangeStatus
  sources : List ContextChangeSource
deriving DecidableEq, Repr

structure ContextChangeScope where
  since : Option Str
  dirtyWorktree : Bool
  totalChanges : Nat
  changesTruncated : Bool
  changes : List ContextChange
deriving DecidableEq, Repr

structure ContextInputPath where
  filePath : SourcePath
  line : Option Nat
deriving DecidableEq, Repr

structure ContextCoverage where
  files : Nat
  primary : Nat
  definitions : Nat
  dependencies : Nat
  dependents : Nat
  callers : Nat
  references : Nat
  tests : Nat
  config : Nat
  documentation : Nat
deriving DecidableEq, Repr

structure ContextItem where
  filePath : SourcePath
  startLine : Nat
  endLine : Nat
  roles : List ContextRole
  reasons : List Str
  sources : List Str
  preview : Str
  estimatedTokens : Nat
deriving DecidableEq, Repr

structure ContextBundle where
  task : Str
  workspace : Str
  changeScope : Option ContextChangeScope
  referencedPaths : List ContextInputPath
  budgetTokens : Nat
  usedTokens : Nat
  candidateCount : Nat
  truncated : Bool
  anchorSymbols : List Str
  coverage : ContextCoverage
  items : List ContextItem
deriving DecidableEq, Repr

/-- A candidate with its hit. The score is its place in the order of `f64::total_cmp`; the sets of
    roles and reasons are sorted lists. -/
structure ContextCandidate where
  filePath : SourcePath
  startLine : Nat
  endLine : Nat
  preview : Str
  sources : List Str
  roles : List ContextRole
  reasons : List Str
  fusedScore : Int
deriving DecidableEq, Repr

namespace ContextBundle

/-- `MAX_ITEMS`. -/
def maxItems : Nat := 20

/-- `TARGET_CONTEXT_ITEMS`. -/
def targetContextItems : Nat := 14

/-! ## Rendering -/

/-- A number in decimal. -/
def digits (n : Nat) : Str := Nat.toDigits 10 n

def pathStr (path : SourcePath) : Str := Str.join ['/'] path

def languageFence (path : SourcePath) : Str :=
  let extension := TestEdges.extension path
  let fences : List (List String × String) :=
    [(["rs"], "rust"), (["py"], "python"), (["js", "jsx"], "javascript"),
      (["ts", "tsx"], "typescript"), (["go"], "go"), (["java"], "java"), (["rb"], "ruby"),
      (["sh", "bash"], "bash"), (["md"], "markdown"), (["json"], "json"), (["toml"], "toml"),
      (["yaml", "yml"], "yaml")]
  match fences.find? fun fence => (fence.1.map String.toList).contains extension with
  | some fence => fence.2.toList
  | none => "text".toList

/-- The longest run of backticks. -/
def longestBacktickRun (run longest : Nat) : Str → Nat
  | [] => max run longest
  | c :: rest =>
    if c = '\x60' then longestBacktickRun (run + 1) longest rest
    else longestBacktickRun 0 (max run longest) rest

/-- A fence must outgrow every backtick run in the preview to stay closed. -/
def fence (preview : Str) : Str :=
  List.replicate (max (longestBacktickRun 0 0 preview + 1) 3) '\x60'

def renderMarkdownItem (index : Nat) (item : ContextItem) : Str :=
  "\n### ".toList ++ digits index ++ ". ".toList ++ pathStr item.filePath ++ ":".toList ++
    digits item.startLine ++ "-".toList ++ digits item.endLine ++ " [".toList ++
    Str.join ", ".toList (item.roles.map ContextRole.label) ++ "]\n\n".toList ++
    (if item.reasons.isEmpty then []
      else "Why: ".toList ++ Str.join "; ".toList item.reasons ++ ".\n\n".toList) ++
    (if item.sources.isEmpty then []
      else "Signals: ".toList ++ Str.join ", ".toList item.sources ++ ".\n\n".toList) ++
    fence item.preview ++ languageFence item.filePath ++ "\n".toList ++ item.preview ++
    "\n".toList ++ fence item.preview ++ "\n".toList

def changeLimit (budgetTokens : Nat) : Nat := clamp (budgetTokens / 256) 1 12

def renderChange (change : ContextChange) : Str :=
  "- ".toList ++ change.status.label ++ ": ".toList ++ pathStr change.filePath ++
    (change.oldPath.elim [] fun old => " from ".toList ++ pathStr old) ++ " (".toList ++
    Str.join ", ".toList (change.sources.map ContextChangeSource.label) ++ ")\n".toList

def renderChangeScope (budgetTokens : Nat) (scope : ContextChangeScope) : Str :=
  "Changes: ".toList ++ digits scope.totalChanges ++ " file".toList ++
    (if scope.totalChanges = 1 then [] else "s".toList) ++ " from ".toList ++
    (scope.since.elim "HEAD".toList fun reference => reference ++ "...HEAD".toList) ++
    (if scope.dirtyWorktree then " plus dirty worktree".toList else []) ++
    (if scope.changesTruncated then " (list truncated)".toList else []) ++ "\n".toList ++
    ((scope.changes.take (changeLimit budgetTokens)).map renderChange).flatten ++
    (if changeLimit budgetTokens < scope.totalChanges then
      "- ... ".toList ++ digits (scope.totalChanges - changeLimit budgetTokens) ++
        " more\n".toList
    else []) ++ "\n".toList

def renderReference (reference : ContextInputPath) : Str :=
  pathStr reference.filePath ++ reference.line.elim [] fun line => ":".toList ++ digits line

/-- What is rendered before the number of used tokens. -/
def renderBeforeUsed (bundle : ContextBundle) : Str :=
  "# ivygrep context\n\n".toList ++ "Task: ".toList ++ bundle.task ++ "\n\n".toList ++
    "Workspace: ".toList ++ bundle.workspace ++ "\n\n".toList ++
    bundle.changeScope.elim [] (renderChangeScope bundle.budgetTokens) ++
    (if bundle.referencedPaths.isEmpty then []
      else "Input paths: ".toList ++
        Str.join ", ".toList (bundle.referencedPaths.map renderReference) ++ "\n\n".toList) ++
    "Budget: ".toList

def renderCoverage (coverage : ContextCoverage) : Str :=
  "Coverage: ".toList ++ digits coverage.files ++ " files | ".toList ++
    digits coverage.primary ++ " primary | ".toList ++ digits coverage.definitions ++
    " definitions | ".toList ++ digits coverage.dependencies ++ " dependencies | ".toList ++
    digits coverage.dependents ++ " dependents | ".toList ++ digits coverage.callers ++
    " callers | ".toList ++ digits coverage.references ++ " references | ".toList ++
    digits coverage.tests ++ " tests | ".toList ++ digits coverage.config ++
    " config | ".toList ++ digits coverage.documentation ++ " docs\n".toList

/-- The items, numbered from `index`. -/
def renderItems (index : Nat) : List ContextItem → Str
  | [] => []
  | item :: items => renderMarkdownItem index item ++ renderItems (index + 1) items

/-- What is rendered after it. -/
def renderAfterUsed (bundle : ContextBundle) : Str :=
  " / ".toList ++ digits bundle.budgetTokens ++ " estimated tokens".toList ++
    (if bundle.truncated then " (truncated)".toList else []) ++ "\n".toList ++
    (if bundle.anchorSymbols.isEmpty then []
      else "Anchors: ".toList ++ Str.join ", ".toList bundle.anchorSymbols ++ "\n".toList) ++
    renderCoverage bundle.coverage ++ "Candidates: ".toList ++ digits bundle.candidateCount ++
    " retrieved | ".toList ++ digits bundle.items.length ++ " selected\n".toList ++
    "\n## Evidence\n".toList ++ renderItems 1 bundle.items

def renderMarkdown (bundle : ContextBundle) : Str :=
  renderBeforeUsed bundle ++ digits bundle.usedTokens ++ renderAfterUsed bundle

/-! ## Metrics -/

def coverageOf (items : List ContextItem) : ContextCoverage :=
  let count (role : ContextRole) := (items.map fun item => item.roles.count role).sum
  { files := (items.map ContextItem.filePath).dedup.length
    primary := count .primary
    definitions := count .definition
    dependencies := count .dependency
    dependents := count .dependent
    callers := count .caller
    references := count .reference
    tests := count .test
    config := count .config
    documentation := count .documentation }

/-- The rounds that make the rendered number of tokens its own estimate. -/
def settleUsed : Nat → ContextBundle → ContextBundle
  | 0, bundle => bundle
  | rounds + 1, bundle =>
    let estimated := estimateTokens (renderMarkdown bundle)
    if estimated = bundle.usedTokens then bundle
    else settleUsed rounds { bundle with usedTokens := estimated }

def finalizeBundleMetrics (bundle : ContextBundle) : ContextBundle :=
  settleUsed 4 { bundle with coverage := coverageOf bundle.items }

/-- `estimated_header_tokens`. -/
def estimatedHeaderTokens (task workspace : Str) (budgetTokens : Nat) (anchorSymbols : List Str)
    (candidateCount : Nat) (changeScope : Option ContextChangeScope)
    (referencedPaths : List ContextInputPath) : Nat :=
  saturatingAdd (estimateTokens (renderMarkdown
    { task, workspace, changeScope, referencedPaths, budgetTokens
      usedTokens := budgetTokens
      candidateCount
      truncated := true
      anchorSymbols
      coverage := ⟨maxItems, maxItems, maxItems, maxItems, maxItems, maxItems, maxItems, maxItems,
        maxItems, maxItems⟩
      items := [] })) 8

/-- The changes that fit. `toJson` is what a change is serialized to, if that succeeds. -/
def boundedChanges (toJson : ContextChange → Option Str) (tokenLimit : Nat) (usedTokens : Nat) :
    List ContextChange → List ContextChange
  | [] => []
  | change :: changes =>
    let tokens := ((toJson change).map estimateTokens).getD (saturatingAdd tokenLimit 1)
    if tokens ≤ tokenLimit - usedTokens then
      change :: boundedChanges toJson tokenLimit (saturatingAdd usedTokens tokens) changes
    else boundedChanges toJson tokenLimit usedTokens changes

def boundChangeScope (toJson : ContextChange → Option Str) (scope : ContextChangeScope)
    (budgetTokens : Nat) : ContextChangeScope :=
  let changes := boundedChanges toJson (clamp (budgetTokens / 4) 32 1024) 0
    (scope.changes.take (changeLimit budgetTokens))
  { scope with
    changes
    changesTruncated := scope.changesTruncated || decide (changes.length < scope.totalChanges) ||
      decide (changes.length < scope.changes.length) }

/-! ## Selection -/

def rangesSubstantiallyOverlap (leftStart leftEnd rightStart rightEnd : Nat) : Bool :=
  let overlapStart := max leftStart rightStart
  let overlapEnd := min leftEnd rightEnd
  if overlapEnd < overlapStart then false
  else
    let overlap := overlapEnd - overlapStart + 1
    let shorter := min (leftEnd - leftStart + 1) (rightEnd - rightStart + 1)
    decide (shorter ≤ overlap * 2)

def substantiallyOverlaps (item : ContextItem) (candidate : ContextCandidate) : Bool :=
  decide (item.filePath = candidate.filePath) &&
    rangesSubstantiallyOverlap item.startLine item.endLine candidate.startLine candidate.endLine

/-- The order of the candidates: score, path, first line. -/
def before (left right : ContextCandidate) : Prop :=
  right.fusedScore < left.fusedScore ∨
    right.fusedScore = left.fusedScore ∧
      (left.filePath < right.filePath ∨
        left.filePath = right.filePath ∧ left.startLine ≤ right.startLine)

instance : DecidableRel before := fun _ _ => inferInstanceAs (Decidable (_ ∨ _))

def leadingRoles : List ContextRole :=
  [.primary, .definition, .dependency, .dependent, .caller, .reference, .test, .config,
    .documentation]

/-- For each role the first candidate that has it and is not claimed yet, with its index. -/
def claim (candidates : List (ContextCandidate × Nat)) :
    List ContextRole → List (ContextCandidate × Nat) → List (ContextCandidate × Nat)
  | [], claimed => claimed
  | role :: roles, claimed =>
    match candidates.find? fun candidate =>
        !(claimed.map Prod.snd).contains candidate.2 && candidate.1.roles.contains role with
    | none => claim candidates roles claimed
    | some candidate => claim candidates roles (claimed ++ [candidate])

/-- The claimed candidates, then the others. -/
def orderCandidates (candidates : List ContextCandidate) : List ContextCandidate :=
  let claimed := claim candidates.zipIdx leadingRoles []
  let others := candidates.zipIdx.filter fun candidate =>
    !(claimed.map Prod.snd).contains candidate.2
  (claimed ++ others).map Prod.fst

def contextRolesCovered (items : List ContextItem) (requiredRoles : List ContextRole) : Bool :=
  requiredRoles.all fun role => items.any fun item => item.roles.contains role

/-- What does not change while items are taken. -/
structure Selection where
  words : TaskWords
  budgetTokens : Nat
  requiredRoles : List ContextRole

structure Selected where
  items : List ContextItem
  usedTokens : Nat
  fileCounts : SourcePath → Nat
  truncated : Bool

/-- What the loop does with a candidate. -/
inductive Choice where
  | stop
  | skip
  | take (item : ContextItem) (previewTruncated : Bool)
deriving DecidableEq

/-- An item without its preview. -/
def bareItem (candidate : ContextCandidate) : ContextItem where
  filePath := candidate.filePath
  startLine := candidate.startLine
  endLine := candidate.endLine
  roles := candidate.roles
  reasons := candidate.reasons
  sources := candidate.sources
  preview := []
  estimatedTokens := 0

/-- The item with the lines that are shown. A line number does not reach `usize::MAX`. -/
def itemWithPreview (itemNumber : Nat) (candidate : ContextCandidate) (preview : Str)
    (startOffset : Nat) : ContextItem :=
  let item := { bareItem candidate with
    preview
    startLine := candidate.startLine + startOffset
    endLine := candidate.startLine + startOffset + ((Str.lines preview).length - 1) }
  { item with estimatedTokens := estimateTokens (renderMarkdownItem itemNumber item) }

def choose (selection : Selection) (selected : Selected) (candidate : ContextCandidate) : Choice :=
  if selected.items.length = maxItems ∨ selection.budgetTokens ≤ selected.usedTokens then .stop
  else if targetContextItems ≤ selected.items.length ∧
      contextRolesCovered selected.items selection.requiredRoles then .stop
  else if 3 ≤ selected.fileCounts candidate.filePath ∨
      selected.items.any (substantiallyOverlaps · candidate) then .skip
  else
    let itemNumber := selected.items.length + 1
    let wrapperTokens := estimateTokens (renderMarkdownItem itemNumber (bareItem candidate))
    let remaining := selection.budgetTokens - saturatingAdd selected.usedTokens wrapperTokens
    if remaining < 64 then .stop
    else
      let perItemBudget := min (clamp (selection.budgetTokens / 4) 96 400) remaining
      let shown := truncateToTokenBudget selection.words candidate.preview perItemBudget
      if shown.2.1 ∧ estimateTokens shown.1 < 32 then .stop
      else
        let item := itemWithPreview itemNumber candidate shown.1 shown.2.2
        if (Str.trim item.preview).isEmpty ∨
            selection.budgetTokens - selected.usedTokens < item.estimatedTokens then .skip
        else .take item shown.2.1

def Selected.add (selected : Selected) (item : ContextItem) (previewTruncated : Bool) :
    Selected where
  items := selected.items ++ [item]
  usedTokens := saturatingAdd selected.usedTokens item.estimatedTokens
  fileCounts path := selected.fileCounts path + if path = item.filePath then 1 else 0
  truncated := selected.truncated || previewTruncated

/-- The loop over the ordered candidates. -/
def select (selection : Selection) : List ContextCandidate → Selected → Selected
  | [], selected => selected
  | candidate :: candidates, selected =>
    match choose selection selected candidate with
    | .stop => { selected with truncated := true }
    | .skip => select selection candidates selected
    | .take item previewTruncated =>
      select selection candidates (selected.add item previewTruncated)

/-- The loop that drops items, for as many rounds as there are items. -/
def dropItems : Nat → ContextBundle → ContextBundle
  | 0, bundle => bundle
  | rounds + 1, bundle =>
    if bundle.budgetTokens < bundle.usedTokens ∧ bundle.items ≠ [] then
      dropItems rounds (finalizeBundleMetrics
        { bundle with items := bundle.items.dropLast, truncated := true })
    else bundle

/-- The task, with the words that are looked for in it. -/
structure ContextTask where
  text : Str
  words : TaskWords

def assembleBundle (toJson : ContextChange → Option Str) (task : ContextTask) (workspace : Str)
    (budgetTokens : Nat) (anchorSymbols : List Str) (changeScope : Option ContextChangeScope)
    (referencedPaths : List ContextInputPath) (candidates : List ContextCandidate) :
    ContextBundle :=
  let changeScope := changeScope.map (boundChangeScope toJson · budgetTokens)
  let referencedPathLimit := clamp (budgetTokens / 64) 1 32
  let referencedPathsTruncated := decide (referencedPathLimit < referencedPaths.length)
  let referencedPaths := referencedPaths.take referencedPathLimit
  let fixedHeaderTokens := estimatedHeaderTokens [] workspace budgetTokens anchorSymbols
    candidates.length changeScope referencedPaths
  let taskBudget := min (budgetTokens - fixedHeaderTokens) 1024
  let outputTask := truncateToTokenBudget task.words task.text taskBudget
  let candidates := candidates.insertionSort before
  let requiredRoles := (candidates.flatMap ContextCandidate.roles).filter (· ≠ .related)
  let selected := select ⟨task.words, budgetTokens, requiredRoles⟩ (orderCandidates candidates)
    { items := []
      usedTokens := estimatedHeaderTokens outputTask.1 workspace budgetTokens anchorSymbols
        candidates.length changeScope referencedPaths
      fileCounts := fun _ => 0
      truncated := outputTask.2.1 || referencedPathsTruncated }
  let bundle := finalizeBundleMetrics
    { task := outputTask.1
      workspace
      changeScope
      referencedPaths
      budgetTokens
      usedTokens := selected.usedTokens
      candidateCount := candidates.length
      truncated := selected.truncated
      anchorSymbols
      coverage := ⟨0, 0, 0, 0, 0, 0, 0, 0, 0, 0⟩
      items := selected.items }
  dropItems bundle.items.length bundle

end ContextBundle

end Ivygrep.Native
