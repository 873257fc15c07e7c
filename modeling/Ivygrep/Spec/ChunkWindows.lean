import Ivygrep.Native.Chunking
import Ivygrep.Spec.StrCorrect

/-!
# Bounded windows

`push_bounded_structural_chunks` splits a line range into overlapping windows. The
windows stay inside the range and cover it, and the text of each chunk is a header
that `strip_chunk_header` removes.
-/

namespace Ivygrep.Native

/-! ## Windows -/

/-- A grown window ends between its current end and the last line. -/
theorem growWindow_bounds (lines : List Str) (endLine room stop bytes : Nat)
    (h : stop ≤ endLine) :
    stop ≤ growWindow lines endLine room stop bytes ∧
      growWindow lines endLine room stop bytes ≤ endLine := by
  induction room generalizing stop bytes with
  | zero => exact ⟨Nat.le_refl _, h⟩
  | succ room ih =>
    simp only [growWindow]
    split
    · rename_i hlt
      split
      · exact ⟨Nat.le_refl _, h⟩
      · have := ih (stop + 1) (bytes + (Str.len (lineAt lines (stop + 1)) + 1)) (by omega)
        omega
    · exact ⟨Nat.le_refl _, h⟩

theorem windowEnd_bounds (lines : List Str) {endLine windowStart : Nat}
    (h : windowStart ≤ endLine) :
    windowStart ≤ windowEnd lines endLine windowStart ∧
      windowEnd lines endLine windowStart ≤ endLine :=
  growWindow_bounds lines endLine _ windowStart _ h

/-- Every window lies inside the range. -/
theorem windows_bounds (lines : List Str) (endLine windowStart : Nat) :
    ∀ window ∈ windows lines endLine windowStart,
      windowStart ≤ window.1 ∧ window.1 ≤ window.2 ∧ window.2 ≤ endLine := by
  fun_induction windows lines endLine windowStart with
  | case1 windowStart hle stop ih =>
    have hstop := windowEnd_bounds lines hle
    intro window hwindow
    rcases List.mem_cons.mp hwindow with rfl | hwindow
    · exact ⟨Nat.le_refl _, hstop⟩
    · split at hwindow
      · simp at hwindow
      · have := ih window hwindow
        omega
  | case2 => simp

/-- Every line of the range lies in a window. -/
theorem windows_cover (lines : List Str) (endLine windowStart line : Nat)
    (hstart : windowStart ≤ line) (hend : line ≤ endLine) :
    ∃ window ∈ windows lines endLine windowStart, window.1 ≤ line ∧ line ≤ window.2 := by
  fun_induction windows lines endLine windowStart with
  | case1 windowStart hle stop ih =>
    have hstop : windowStart ≤ stop ∧ stop ≤ endLine := windowEnd_bounds lines hle
    by_cases hline : line ≤ stop
    · exact ⟨(windowStart, stop), by simp, hstart, hline⟩
    · rw [if_neg (by omega)]
      -- The next window starts at or before the line after this one.
      obtain ⟨window, hwindow, hcover⟩ := ih (by omega)
      exact ⟨window, List.mem_cons_of_mem _ hwindow, hcover⟩
  | case2 windowStart hle => omega

/-! ## Headers -/

/-- A chunk's text, less its header, is the text of its lines. -/
def Chunk.Faithful (relPath : Str) (lines : List Str) (chunk : Chunk) : Prop :=
  stripChunkHeader chunk.text relPath = joinLines lines chunk.startLine chunk.endLine

private theorem samePathIgnoringSeparators_refl (path : Str) :
    samePathIgnoringSeparators path path = true := by
  have hzip : ∀ bytes : List UInt8, ∀ pair ∈ bytes.zip bytes, pair.1 = pair.2 := by
    intro bytes
    induction bytes with
    | nil => simp
    | cons byte rest ih => simpa using ih
  simp only [samePathIgnoringSeparators, beq_self_eq_true, Bool.true_and, List.all_eq_true]
  intro pair hpair
  simp [hzip _ pair hpair]

/-- `strip_chunk_header` past the path comment, where another line follows it. -/
private theorem stripChunkHeader_path {relPath rest line body : Str} (h : '\n' ∉ relPath)
    (hsplit : Str.splitOnce '\n' rest = some (line, body)) :
    stripChunkHeader ("// ".toList ++ (relPath ++ '\n' :: rest)) relPath =
      (Str.stripPrefix
        (if Str.startsWith line "// continuation of ".toList ||
            Str.startsWith line "// Rust documentation included from ".toList then body
          else rest) "\n".toList).getD
        ("// ".toList ++ (relPath ++ '\n' :: rest)) := by
  simp only [stripChunkHeader, Str.stripPrefix_append, Option.bind_some,
    Str.splitOnce_append rest h, Option.filter_some, samePathIgnoringSeparators_refl, if_true,
    hsplit]

private theorem stripPrefix_newline (block : Str) :
    Str.stripPrefix ('\n' :: block) "\n".toList = some block :=
  Str.stripPrefix_append "\n".toList block

/-- The header of a first window: the path comment and a blank line. -/
theorem stripChunkHeader_first {relPath : Str} (block : Str) (h : '\n' ∉ relPath) :
    stripChunkHeader ("// ".toList ++ relPath ++ "\n\n".toList ++ block) relPath = block := by
  have htext : "// ".toList ++ relPath ++ "\n\n".toList ++ block =
      "// ".toList ++ (relPath ++ '\n' :: '\n' :: block) := by
    rw [List.append_assoc, List.append_assoc]; rfl
  have hsplit : Str.splitOnce '\n' ('\n' :: block) = some ([], block) := by
    simp [Str.splitOnce]
  have hline : (Str.startsWith [] "// continuation of ".toList ||
      Str.startsWith [] "// Rust documentation included from ".toList) = false := by decide
  rw [htext, stripChunkHeader_path h hsplit]
  simp only [hline, Bool.false_eq_true, if_false, stripPrefix_newline, Option.getD_some]

/-- The header of a continuation window: the path comment, the context line, and a
    blank line. -/
theorem stripChunkHeader_continuation {relPath context : Str} (block : Str)
    (h : '\n' ∉ relPath) (hcontext : '\n' ∉ context) :
    stripChunkHeader ("// ".toList ++ relPath ++ "\n// continuation of ".toList ++ context ++
      "\n\n".toList ++ block) relPath = block := by
  have htext : "// ".toList ++ relPath ++ "\n// continuation of ".toList ++ context ++
      "\n\n".toList ++ block =
      "// ".toList ++ (relPath ++ '\n' ::
        ("// continuation of ".toList ++ context ++ '\n' :: '\n' :: block)) := by
    simp only [List.append_assoc]; rfl
  have hline : '\n' ∉ "// continuation of ".toList ++ context := by
    rw [List.mem_append]
    exact fun hmem => hmem.elim (by decide) hcontext
  rw [htext, stripChunkHeader_path h (Str.splitOnce_append _ hline)]
  simp only [Str.startsWith_append, Bool.true_or, if_true, stripPrefix_newline,
    Option.getD_some]

/-! ## Chunks of one line range -/

section

variable {relPath language context : Str} {lines : List Str} {startLine endLine : Nat}
  {kind : ChunkKind} {definitions : Option (List ChunkDefinition)}

/-- The chunks of a range lie inside it, and their text is faithful. -/
theorem boundedStructuralChunks_sound (hpath : '\n' ∉ relPath) (hcontext : '\n' ∉ context) :
    ∀ chunk ∈ boundedStructuralChunks relPath lines startLine endLine language kind context
        definitions,
      startLine ≤ chunk.startLine ∧ chunk.endLine ≤ endLine ∧ chunk.Faithful relPath lines := by
  intro chunk hchunk
  simp only [boundedStructuralChunks] at hchunk
  split at hchunk
  · simp at hchunk
  · obtain ⟨window, hwindow, rfl⟩ := List.mem_map.mp hchunk
    have hbounds := windows_bounds lines endLine startLine window hwindow
    split
    · exact ⟨hbounds.1, hbounds.2.2, stripChunkHeader_first _ hpath⟩
    · exact ⟨hbounds.1, hbounds.2.2, stripChunkHeader_continuation _ hpath hcontext⟩

/-- The line with this number is one of the lines of the range. -/
theorem lineAt_mem_slice {line : Nat} (hfirst : 1 ≤ startLine) (hstart : startLine ≤ line)
    (hend : line ≤ endLine) (hlen : line ≤ lines.length) :
    lineAt lines line ∈ (lines.take endLine).drop (startLine - 1) := by
  have hlt : line - 1 < lines.length := by omega
  rw [lineAt, List.getD_eq_getElem?_getD, List.getElem?_eq_getElem hlt, Option.getD_some,
    List.mem_iff_getElem]
  refine ⟨line - startLine, by simp; omega, ?_⟩
  rw [List.getElem_drop, List.getElem_take]
  congr 1
  omega

variable (relPath language kind context definitions) in
/-- Every line of the range is in a chunk, as soon as one line of it is neither
    blank nor a bracket. -/
theorem boundedStructuralChunks_cover {line : Nat} (hfirst : 1 ≤ startLine)
    (hstart : startLine ≤ line) (hend : line ≤ endLine) (hlen : line ≤ lines.length)
    (hline : isBlankOrBracket (lineAt lines line) = false) :
    ∃ chunk ∈ boundedStructuralChunks relPath lines startLine endLine language kind context
        definitions,
      chunk.startLine ≤ line ∧ line ≤ chunk.endLine := by
  obtain ⟨window, hwindow, hcover⟩ := windows_cover lines endLine startLine line hstart hend
  have hkept : ¬ (endLine < startLine ∨
      ((lines.take endLine).drop (startLine - 1)).all isBlankOrBracket = true) := by
    rw [List.all_eq_true, not_or]
    refine ⟨by omega, fun hall => ?_⟩
    simp [hall _ (lineAt_mem_slice hfirst hstart hend hlen)] at hline
  rw [boundedStructuralChunks, if_neg hkept]
  refine ⟨_, List.mem_map_of_mem hwindow, ?_⟩
  dsimp only
  split <;> exact hcover

end

end Ivygrep.Native
