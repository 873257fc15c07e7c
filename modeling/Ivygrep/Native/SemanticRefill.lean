import Ivygrep.ForStd.Ranking
import Mathlib.Order.Compare

/-!
# Exact scoring of eligible keys

`score_many_top_k_checked` of `vector_store/optimized.rs`, and `merge_top_matches` and `score_batch`
of `search_semantic_visibility.rs`, in a search that is not cancelled. A score is a value of any
type with a total order, which is that of `f32::total_cmp`.
-/

namespace Ivygrep.Native

open ForStd

structure VectorMatch (S : Type) where
  key : UInt64
  score : S
  deriving DecidableEq

/-- A store with what it does for one query: `validate_vector` may refuse the query, reading a key
    may fail, and a key without a vector has no score. -/
structure QueryStore (S ε : Type) where
  validateVector : Except ε Unit
  score : UInt64 → Except ε (Option S)

section

variable {S ε : Type} [LinearOrder S]

/-- `RankedVectorMatch::cmp`: the larger one is the better match. -/
def compareRanked (left right : VectorMatch S) : Ordering :=
  (compare left.score right.score).then (compare right.key left.key)

/-- The comparison that matches are sorted by. -/
def compareMatches (left right : VectorMatch S) : Ordering :=
  (compare right.score left.score).then (compare left.key right.key)

def sortMatches (hits : List (VectorMatch S)) : List (VectorMatch S) :=
  hits.insertionSort fun left right => compareMatches left right ≠ .gt

/-- `merge_top_matches`. -/
def mergeTopMatches (best more : List (VectorMatch S)) (limit : Nat) : List (VectorMatch S) :=
  (retainFirst VectorMatch.key [] (sortMatches (best ++ more))).take limit

/-! ## One store -/

/-- The heap of the best matches so far, kept with its best one first, and their keys. -/
structure TopMatches (S : Type) where
  top : List (VectorMatch S)
  retained : List UInt64

namespace TopMatches

variable (state : TopMatches S)

/-- `top.push` and `retained.insert`. -/
def push (ranked : VectorMatch S) : TopMatches S where
  top := insertLast (fun left right => compareMatches left right ≠ .gt) ranked state.top
  retained := ranked.key :: state.retained

/-- `top.pop` and `retained.remove`. -/
def pop (worst : VectorMatch S) : TopMatches S where
  top := state.top.dropLast
  retained := state.retained.filter (· ≠ worst.key)

/-- A match that is scored: it enters a full heap in place of the worst one only. -/
def offer (count : Nat) (ranked : VectorMatch S) : TopMatches S :=
  if state.top.length < count then state.push ranked
  else
    match state.top.getLast? with
    | none => state
    | some worst =>
      if compareRanked ranked worst = .gt then (state.pop worst).push ranked else state

/-- The body of the loop over the keys. -/
def scoreKey (store : QueryStore S ε) (count : Nat) (key : UInt64) :
    Except ε (TopMatches S) :=
  if key ∈ state.retained then .ok state
  else
    (store.score key).map fun score =>
      match score with
      | none => state
      | some score => state.offer count ⟨key, score⟩

def scoreKeys (store : QueryStore S ε) (count : Nat) (state : TopMatches S) :
    List UInt64 → Except ε (TopMatches S)
  | [] => .ok state
  | key :: keys =>
    (state.scoreKey store count key).bind fun state => scoreKeys store count state keys

end TopMatches

/-- `VectorStore::score_many_top_k_checked`. -/
def QueryStore.scoreManyTopKChecked (store : QueryStore S ε) (keys : List UInt64)
    (count : Nat) : Except ε (List (VectorMatch S)) :=
  if count = 0 then .ok []
  else
    store.validateVector.bind fun _ =>
      (TopMatches.scoreKeys store count ⟨[], []⟩ keys).map fun state => sortMatches state.top

/-! ## Both stores -/

/-- The body of the loop of `score_batch`. -/
def scoreStore (keys : List UInt64) (limit : Nat) (store : QueryStore S ε)
    (best : List (VectorMatch S)) : Except ε (List (VectorMatch S)) :=
  (store.scoreManyTopKChecked keys limit).map fun more => mergeTopMatches best more limit

/-- `score_batch`. -/
def scoreBatch (keys : List UInt64) (limit : Nat)
    (stores : Option (QueryStore S ε) × Option (QueryStore S ε))
    (best : List (VectorMatch S)) : Except ε (List (VectorMatch S)) :=
  [stores.1, stores.2].reduceOption.foldlM (fun best store => scoreStore keys limit store best) best

/-- The batches of one search, from no matches at all. -/
def scoreBatches (batches : List (List UInt64)) (limit : Nat)
    (stores : Option (QueryStore S ε) × Option (QueryStore S ε)) :
    Except ε (List (VectorMatch S)) :=
  batches.foldlM (fun best keys => scoreBatch keys limit stores best) []

end

end Ivygrep.Native
