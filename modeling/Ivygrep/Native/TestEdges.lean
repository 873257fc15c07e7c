import Ivygrep.Native.Str

/-!
# Edges from production files to tests

The part of `context_graph.rs` that pairs a file with its conventional tests, and what
`indexer.rs` does to the rows of `file_edges` when a run indexes files. A path is the list of its
segments between slashes. Which dependency, configuration and documentation edges a file has is
given with the file; only their number matters here. The late-bound rows of a file only decide
which further files a run indexes, and a run here indexes any files.
-/

namespace Ivygrep.Native

abbrev SourcePath := List Str

inductive FileEdgeKind where
  | dependency
  | test
  | config
  | documentation
deriving DecidableEq, Repr

structure FileEdge where
  sourcePath : SourcePath
  targetPath : SourcePath
  kind : FileEdgeKind
deriving DecidableEq, Repr

/-- `MAX_EDGES_PER_FILE`. -/
def maxEdgesPerFile : Nat := 64

namespace TestEdges

/-! ## Names -/

/-- `str::strip_suffix`. -/
def stripSuffix (s suffix : Str) : Option Str :=
  if suffix.isSuffixOf s then some (s.take (s.length - suffix.length)) else none

/-- The stem and the extension of a file name, from its last dot. A name whose only dot is its
    first character has no extension. -/
def splitAtDot (name : Str) : Str × Option Str :=
  match Str.splitOnce '.' name.reverse with
  | none => (name, none)
  | some (after, before) =>
    if before.isEmpty then (name, none) else (before.reverse, some after.reverse)

def fileStem (path : SourcePath) : Option Str := path.getLast?.map fun name => (splitAtDot name).1

/-- `extension().unwrap_or("")`. -/
def extension (path : SourcePath) : Str :=
  (path.getLast?.bind fun name => (splitAtDot name).2).getD []

/-- `format!("{stem}.{extension}")`. -/
def fileName (stem extension : Str) : Str := stem ++ '.' :: extension

/-- `Path::join`. Joining the empty path leaves a slash at the end. -/
def join (base rest : SourcePath) : SourcePath := base ++ if rest.isEmpty then [[]] else rest

/-- `Path::strip_prefix`. -/
def stripPrefix (path base : SourcePath) : Option SourcePath :=
  if base.isPrefixOf path then some (path.drop base.length) else none

def isJvmDotnetExtension (extension : Str) : Bool :=
  (["java", "kt", "scala", "groovy", "cs"].map String.toList).contains extension

def testSuffixes (extension : Str) : List Str :=
  if extension = "rb".toList then
    ["_test", "_tests", "_spec", ".test", ".spec"].map String.toList
  else if isJvmDotnetExtension extension then
    ["Test", "Tests", "_test", "_tests", ".test", ".spec"].map String.toList
  else ["_test", "_tests", ".test", ".spec"].map String.toList

def testDirectories (extension : Str) : List Str :=
  if extension = "rb".toList then ["test", "tests", "spec", "specs"].map String.toList
  else if (["js", "jsx", "mjs", "cjs", "ts", "tsx"].map String.toList).contains extension then
    ["test", "tests", "__tests__"].map String.toList
  else ["test", "tests"].map String.toList

/-- The directories that hold tests. -/
def isTestComponent (component : Str) : Bool :=
  (["test", "tests", "spec", "specs", "__tests__"].map String.toList).contains component

def stemLooksLikeTest (stem extension : Str) : Bool :=
  (["_test", "_tests", "_spec", ".test", ".spec"].map String.toList).any (·.isSuffixOf stem) ||
    "test_".toList.isPrefixOf stem ||
    (isJvmDotnetExtension extension &&
      (["Test", "Tests"].map String.toList).any (·.isSuffixOf stem))

def pathLooksLikeTest (path : SourcePath) : Bool :=
  path.any isTestComponent ||
    path.any (fun component =>
      ".Tests".toList.isSuffixOf component || ".Test".toList.isSuffixOf component) ||
    (fileStem path).any fun stem => stemLooksLikeTest stem (extension path)

def stripTestComponent (path : SourcePath) : SourcePath := path.filter (!isTestComponent ·)

/-- The name without the first of these marks of a test that it has. -/
def productionStem (stem extension : Str) : Str :=
  ((Str.stripPrefix stem "test_".toList)
    <|> stripSuffix stem "_test".toList
    <|> stripSuffix stem "_tests".toList
    <|> stripSuffix stem "_spec".toList
    <|> stripSuffix stem ".test".toList
    <|> stripSuffix stem ".spec".toList
    <|> (if isJvmDotnetExtension extension then
      stripSuffix stem "Tests".toList <|> stripSuffix stem "Test".toList else none)).getD stem

/-! ## Candidates -/

def sourceRoots : List Str := ["src", "lib", "app"].map String.toList

/-- `JVM_LAYOUTS`: the directory and the extension of a language. -/
def jvmLayouts : List (Str × Str) :=
  [("java", "java"), ("kotlin", "kt"), ("scala", "scala"), ("groovy", "groovy")].map fun layout =>
    (layout.1.toList, layout.2.toList)

def jvmRoot (kind language : Str) : SourcePath := ["src".toList, kind, language]

/-- `add_jvm_test_candidates`. -/
def jvmTestCandidates (relPath : SourcePath) (stem productionStem extension : Str)
    (isTest : Bool) : List SourcePath :=
  if !(jvmLayouts.map Prod.snd).contains extension then []
  else jvmLayouts.flatMap fun layout =>
    if isTest then
      jvmLayouts.flatMap fun testLayout =>
        match stripPrefix relPath (jvmRoot "test".toList testLayout.1) with
        | none => []
        | some relative =>
          [jvmRoot "main".toList layout.1 ++ relative.dropLast ++
            [fileName productionStem layout.2]]
    else
      match stripPrefix relPath (jvmRoot "main".toList layout.1) with
      | none => []
      | some relative =>
        (["Test", "Tests"].map String.toList).map fun suffix =>
          jvmRoot "test".toList layout.1 ++ relative.dropLast ++
            [fileName (stem ++ suffix) layout.2]

def dotnetProductionProjectName (project : Str) : Option Str :=
  (stripSuffix project ".Tests".toList <|> stripSuffix project ".Test".toList
    <|> stripSuffix project "Tests".toList).filter (!·.isEmpty)

/-- `add_dotnet_test_candidates`. -/
def dotnetTestCandidates (relPath : SourcePath) (stem productionStem : Str) (isTest : Bool) :
    List SourcePath :=
  if isTest then
    (["tests", "test", "src"].map String.toList).flatMap fun root =>
      match stripPrefix relPath [root] with
      | none | some [] => []
      | some (project :: remainder) =>
        match dotnetProductionProjectName project with
        | none => []
        | some project =>
          [["src".toList, project] ++ remainder.dropLast ++
            [fileName productionStem "cs".toList]]
  else
    match stripPrefix relPath ["src".toList] with
    | none | some [] => []
    | some (project :: remainder) =>
      (["tests", "test", "src"].map String.toList).flatMap fun root =>
        (["Test", "Tests"].map String.toList).map fun suffix =>
          [root, project ++ ".Tests".toList] ++ remainder.dropLast ++
            [fileName (stem ++ suffix) "cs".toList]

/-- The production files that a test may belong to, from its own name. -/
def productionCandidates (parent : SourcePath) (productionStem extension : Str) :
    List SourcePath :=
  let parent := stripTestComponent parent
  ([] :: sourceRoots.map ([·])).map fun root =>
    root ++ parent ++ [fileName productionStem extension]

/-- The tests that a production file may have, from its own name. -/
def testCandidates (relPath parent : SourcePath) (name stem extension : Str) : List SourcePath :=
  let adjacentTests := parent ++ ["__tests__".toList]
  let relativeUnderSource := (sourceRoots.findSome? fun root => stripPrefix relPath [root]).getD
    relPath
  let sourceRoot := sourceRoots.find? fun root => [root].isPrefixOf relPath
  let directories := testDirectories extension
  -- Each test directory, at the top and below the source root of the file.
  let bases := directories.flatMap fun directory =>
    [directory] :: sourceRoot.toList.map fun root => [root, directory]
  let mirroredParent := relativeUnderSource.dropLast
  (parent ++ [fileName ("test_".toList ++ stem) extension]) ::
    (testSuffixes extension).map (fun suffix => parent ++ [fileName (stem ++ suffix) extension]) ++
    (adjacentTests ++ [fileName stem extension]) ::
    ([".test", ".spec"].map String.toList).map (fun suffix =>
      adjacentTests ++ [fileName (stem ++ suffix) extension]) ++
    bases.map (fun base => join base relativeUnderSource) ++
    bases.flatMap (fun base =>
      (testSuffixes extension).map (fun suffix =>
        base ++ mirroredParent ++ [fileName (stem ++ suffix) extension]) ++
      [base ++ mirroredParent ++ [fileName ("test_".toList ++ stem) extension]]) ++
    directories.map fun directory => [directory, name]

/-- `likely_test_candidates`, as a list instead of a sorted set. -/
def likelyTestCandidates (relPath : SourcePath) : List SourcePath :=
  match relPath.getLast? with
  | none => []
  | some name =>
    let stem := (splitAtDot name).1
    let extension := extension relPath
    let isTest := pathLooksLikeTest relPath
    let productionStem := productionStem stem extension
    let conventional :=
      if isTest then productionCandidates relPath.dropLast productionStem extension
      else testCandidates relPath relPath.dropLast name stem extension
    let dotnet :=
      if extension = "cs".toList then dotnetTestCandidates relPath stem productionStem isTest
      else []
    let jvm := jvmTestCandidates relPath stem productionStem extension isTest
    (conventional ++ jvm ++ dotnet).filter (· ≠ relPath)

/-! ## Extraction -/

/-- `normalize_relative_path`, on the segments. -/
def normalizeFrom (normalized : SourcePath) : SourcePath → Option SourcePath
  | [] => some normalized
  | segment :: rest =>
    if segment = [] ∨ segment = ['.'] then normalizeFrom normalized rest
    else if segment = ['.', '.'] then
      if normalized.isEmpty then none else normalizeFrom normalized.dropLast rest
    else normalizeFrom (normalized ++ [segment]) rest

/-- `existing_workspace_file`, with a snapshot. -/
def existsInWorkspace (snapshot : List SourcePath) (relative : SourcePath) : Bool :=
  (normalizeFrom [] relative).any snapshot.contains

def insertEdge (edges : List FileEdge) (edge : FileEdge) : List FileEdge :=
  if edge.sourcePath = edge.targetPath then edges else edges.insert edge

/-- The edge that joins a file with one of its candidates. -/
def testEdge (relPath related : SourcePath) : FileEdge :=
  if pathLooksLikeTest relPath then ⟨related, relPath, .test⟩ else ⟨relPath, related, .test⟩

/-- The loop over the candidates, which stops at the cap. -/
def extractTestEdges (snapshot : List SourcePath) (relPath : SourcePath) :
    List SourcePath → List FileEdge → List FileEdge
  | [], edges => edges
  | related :: candidates, edges =>
    let edges :=
      if existsInWorkspace snapshot related then insertEdge edges (testEdge relPath related)
      else edges
    if maxEdgesPerFile ≤ edges.length then edges
    else extractTestEdges snapshot relPath candidates edges

/-- A file that a run indexes. Its edges of other kinds come from its content: those that are
    extracted before the tests, and those after. -/
structure SourceFileEdges where
  path : SourcePath
  dependencies : List FileEdge
  documentation : List FileEdge
  kinds : ∀ edge ∈ dependencies ++ documentation, edge.kind ≠ .test

/-- `extract_file_graph_with_trees`: the edges of a file. -/
def extractFileEdges (snapshot : List SourcePath) (file : SourceFileEdges) : List FileEdge :=
  let edges := extractTestEdges snapshot file.path (likelyTestCandidates file.path)
    (file.dependencies.foldl insertEdge [])
  (file.documentation.foldl insertEdge edges).take maxEdgesPerFile

/-! ## The index -/

/-- What `remove_file_chunks` does to `file_edges`. -/
def removeFileEdges (rows : List FileEdge) (path : SourcePath) : List FileEdge :=
  rows.filter fun row =>
    !(row.sourcePath = path || (row.targetPath = path && row.kind = .test))

/-- One file of the persist loop. A fresh index has no rows to remove. -/
def persistFile (snapshot : List SourcePath) (isFreshIndex : Bool) (rows : List FileEdge)
    (file : SourceFileEdges) : List FileEdge :=
  (extractFileEdges snapshot file).foldl (fun rows edge => rows.insert edge)
    (if isFreshIndex then rows else removeFileEdges rows file.path)

/-- A run: the current snapshot, the deleted paths, and the files that it indexes in the order in
    which they are persisted. -/
structure IndexRun where
  snapshot : List SourcePath
  deleted : List SourcePath
  persisted : List SourceFileEdges

def indexWorkspace (isFreshIndex : Bool) (rows : List FileEdge) (run : IndexRun) :
    List FileEdge :=
  run.persisted.foldl (persistFile run.snapshot isFreshIndex)
    (run.deleted.foldl removeFileEdges rows)

end TestEdges

end Ivygrep.Native
