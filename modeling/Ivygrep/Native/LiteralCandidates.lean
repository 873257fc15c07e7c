import Ivygrep.Native.LiteralPrefilter
import Ivygrep.Native.LiteralSearch
import Ivygrep.Native.Usize

/-!
# Candidate files of a literal search

`literal_search_with_context` of `search.rs` and what finds its files: the walk of the sources, or
the trigrams in the index. The search is not cancelled and meets no error.
-/

namespace Ivygrep.Native

open ForStd

/-- `MAX_SEARCH_RESULT_LIMIT`. -/
def maxSearchResultLimit : Nat := 1000

/-- `MAX_SEARCH_CONTEXT_LINES`. -/
def maxSearchContextLines : Nat := 100

/-- A searcher that finds so many documents may have more of them. -/
def maxCandidateDocuments : Nat := 10000

/-- What `substring_candidate_files` reads of a document. Of the documents of a file, the first has
    the text of the file in `text_trigrams`. -/
structure TrigramDocument (Path : Type) where
  filePath : Option Path
  textTrigrams : Option Str
  language : Option Str
  isIgnored : Bool

/-- What a literal search reads of `SearchOptions`. The filters are the predicates they stand for;
    `scopeQuery` is the term that `constrain_query_to_scope` adds to a query. -/
structure LiteralOptions (Path : Type) where
  limit : Option Nat
  context : Nat
  inScope : Path → Bool
  scopeQuery : Option Path → Bool
  globsMatch : Path → Bool
  matchesLiveFileType : Path → Bool
  typeMatchesLanguage : Option (Str → Bool)
  skipGitignore : Bool

/-- What a literal search reads of the workspace and of its index. The regular files of the walk
    have their relative and absolute paths. -/
structure LiteralContext (Path : Type) where
  walked : List (Path × Path)
  readToString : Path → Option Str
  join : Path → Path
  hasTextTrigrams : Bool
  searchers : List (List (TrigramDocument Path))
  isShadowedBaseFile : Nat → Path → Bool
  unindexedLiteralCandidates : Option (List Path)

namespace LiteralOptions

variable {Path : Type} (options : LiteralOptions Path)

/-- `bounded_limit`. -/
def boundedLimit : Option Nat :=
  options.limit.map fun limit =>
    if limit = usizeMax then usizeMax else min limit maxSearchResultLimit

/-- The limit of `literal_search_paths`. -/
def maxHits : Option Nat :=
  let limit := options.boundedLimit.getD 500
  if limit = usizeMax then none else some limit

/-- `filtered_out`. -/
def filteredOut (path : Path) : Bool := !options.inScope path || !options.globsMatch path

/-- The query of all terms, in the scope, finds the document. -/
def queryMatches (terms : List Str) (document : TrigramDocument Path) : Bool :=
  document.textTrigrams.any (fun text =>
    terms.all fun term => (trigramTokens text).any fun token => token.text == term) &&
  options.scopeQuery document.filePath

end LiteralOptions

namespace LiteralContext

variable {Path : Type} [LinearOrder Path] (context : LiteralContext Path)
  (options : LiteralOptions Path)

/-- `literal_search_walk_paths`. -/
def literalSearchWalkPaths : List (Path × Path) :=
  context.walked.filter fun entry =>
    !options.filteredOut entry.1 && options.matchesLiveFileType entry.1

/-- The path that a document of a searcher adds to the candidates. -/
def shownPath (index : Nat) (document : TrigramDocument Path) : Option Path :=
  document.filePath.filter fun path =>
    !(context.isShadowedBaseFile index path || (!options.skipGitignore && document.isIgnored) ||
      options.filteredOut path ||
      options.typeMatchesLanguage.any fun isMatch => !document.language.any isMatch)

/-- The files that the lexical index skipped. -/
def unindexedPaths : List Path :=
  (context.unindexedLiteralCandidates.getD []).filter fun path =>
    !options.filteredOut path && options.matchesLiveFileType path

/-- The documents that each searcher finds for the terms. -/
def foundDocuments (terms : List Str) : List (List (TrigramDocument Path)) :=
  context.searchers.map fun documents => documents.filter (options.queryMatches terms)

/-- The paths of the documents found, with those that are found more than once. -/
def indexedPaths (terms : List Str) : List Path :=
  (context.foundDocuments options terms).zipIdx.flatMap fun documents =>
    documents.1.filterMap (context.shownPath options documents.2)

/-- The set of paths in order, joined to the root. -/
def sortedCandidates (paths : List Path) : List (Path × Path) :=
  (paths.dedup.insertionSort (· ≤ ·)).map fun path => (path, context.join path)

/-- `substring_candidate_files`. -/
def substringCandidateFiles (runs : List Str) : Option (List (Path × Path)) :=
  if context.hasTextTrigrams then
    (substringCandidateQuery runs).bind fun terms =>
      if (context.foundDocuments options terms).any fun documents =>
          maxCandidateDocuments ≤ documents.length then none
      else
        some (context.sortedCandidates
          (context.indexedPaths options terms ++ context.unindexedPaths options))
  else none

/-- `literal_search_candidates`: `none` where the runs of the query cannot be taken out. -/
def literalSearchCandidates (lowercase : Lowercase) (queryText : Str) :
    Option (Option (Str × List (Path × Path))) :=
  if Str.trim queryText = [] ∨ options.boundedLimit = some 0 then some none
  else
    let queryLower := lowercase.foldLiteralCase (Str.trim queryText)
    (substringCandidateRuns queryLower).map fun runs =>
      let paths :=
        if runs = [] then context.literalSearchWalkPaths options
        else (context.substringCandidateFiles options runs).getD
          (context.literalSearchWalkPaths options)
      some (queryLower, paths)

/-- The search for a folded query. -/
def literalSearch (lowercase : Lowercase) (queryLower : Str) : LiteralSearch Path where
  lowercase := lowercase
  readToString := context.readToString
  queryLower := queryLower
  context := min options.context maxSearchContextLines

/-- `literal_search_with_context`, with the candidates shared out among the workers. -/
def literalSearchWithContext (lowercase : Lowercase)
    (share : ∀ paths : List (Path × Path),
      {shared : Partition (Path × Path) // shared.items = paths})
    (queryText : Str) : Option (List (SearchHit Path)) :=
  (context.literalSearchCandidates options lowercase queryText).map fun candidates =>
    match candidates with
    | none => []
    | some (queryLower, paths) =>
      (context.literalSearch options lowercase queryLower).literalSearchPaths options.maxHits
        (share paths).1

end LiteralContext

end Ivygrep.Native
