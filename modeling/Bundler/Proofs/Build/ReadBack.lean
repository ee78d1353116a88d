import Bundler.Build.Output
import Bundler.Proofs.Parser.Sequence

/-!
# Reading a bundle back

The output of a bundle is meant to be the program that it was assembled from:
one statement for each chunk, in the order of the chunks.  Chunks are joined by
line breaks alone, and a statement may have ended where it did only because of
what followed it in its module.  Whether the output reads back is decided
statement by statement: each has to be read, from where the one before it ends,
up to its own end.
-/

namespace Bundler

/-- Where the statement of a chunk stands if the chunk starts at an offset. -/
def Chunk.place (chunk : Chunk) (offset : Nat) : Span :=
  let start := offset + Text.byteLength chunk.leading
  ⟨start, start + Text.byteLength chunk.statement⟩

namespace Bundle

variable (bundle : Bundle)

/-- The chunks of all modules, in the order of the output. -/
def chunks : Except BundleError (List Chunk) := do
  return (← bundle.modules.mapM bundle.moduleChunks).flatten

/-- Where the statements of joined chunks stand, from an offset on. -/
def places : Nat → List Chunk → List Span
  | _, [] => []
  | offset, [last] => [last.place offset]
  | offset, before :: after :: others =>
      before.place offset ::
        places (offset + Text.byteLength before.text +
          bundle.lineBreaks before after) (after :: others)

/-- Where the statements of the chunks stand in the output. -/
def statementPlaces : List Span :=
  match bundle.chunks with
  | .ok chunks => bundle.places 0 chunks
  | .error _ => []

/-- The output is a program with exactly one statement for each chunk, which
covers the statement of the chunk, in the order of the chunks. -/
def ReadsBack (output : Output) : Prop :=
  ∃ program, Program.parse output.code = .ok program ∧
    List.Forall₂ Node.Fills program.statements bundle.statementPlaces

variable {bundle}

section Places

theorem byteLength_replicate_lineFeed (count : Nat) :
    Text.byteLength (List.replicate count '\n') = count := by
  induction count with
  | zero => rfl
  | succ count ih =>
      have hsize : '\n'.utf8Size = 1 := rfl
      rw [List.replicate_succ, Text.byteLength, ih, hsize, Nat.add_comm]

theorem slice_append (front middle rest : List Char) :
    Text.slice (front ++ middle ++ rest)
      ⟨Text.byteLength front,
        Text.byteLength front + Text.byteLength middle⟩ = middle := by
  rw [Text.slice, List.append_assoc, Text.dropBytes_byteLength_append,
    Nat.add_sub_cancel_left, Text.takeBytes_byteLength_append]

theorem slice_place (chunk : Chunk) (front rest : List Char) :
    Text.slice (front ++ (chunk.text ++ rest))
      (chunk.place (Text.byteLength front)) = chunk.statement := by
  have hslice := slice_append (front ++ chunk.leading) chunk.statement
    (chunk.trailing ++ rest)
  rw [Text.byteLength_append] at hslice
  simpa [Chunk.place, Chunk.text] using hslice

/-- The statements of joined chunks stand at their places. -/
theorem map_slice_places (front rest : List Char) (chunks : List Chunk) :
    (bundle.places (Text.byteLength front) chunks).map
        (Text.slice (front ++ (bundle.join chunks ++ rest))) =
      chunks.map (·.statement) := by
  induction chunks generalizing front with
  | nil => rfl
  | cons chunk others ih =>
      cases others with
      | nil =>
          rw [places, join, List.map_singleton, slice_place,
            List.map_singleton]
      | cons after others =>
          have hothers := ih (front ++ (chunk.text ++
            List.replicate (bundle.lineBreaks chunk after) '\n'))
          rw [Text.byteLength_append, Text.byteLength_append,
            byteLength_replicate_lineFeed, ← Nat.add_assoc] at hothers
          rw [places, join, List.map_cons, List.map_cons, ← hothers]
          simp only [List.append_assoc]
          rw [slice_place]

theorem length_places (offset : Nat) (chunks : List Chunk) :
    (bundle.places offset chunks).length = chunks.length := by
  induction chunks generalizing offset with
  | nil => rfl
  | cons chunk others ih =>
      cases others with
      | nil => rfl
      | cons after others =>
          rw [places, List.length_cons, ih]
          rfl

theorem one_le_lineBreaks (bundle : Bundle) (before after : Chunk) :
    1 ≤ bundle.lineBreaks before after := by
  rw [lineBreaks]
  split
  · exact Nat.succ_le_succ (Nat.zero_le _)
  · exact Nat.le_refl 1

/-- The line breaks alone make joined chunks about as long as there are
chunks. -/
theorem length_le_byteLength_join (bundle : Bundle) (chunks : List Chunk) :
    chunks.length ≤ Text.byteLength (bundle.join chunks) + 1 := by
  induction chunks with
  | nil => exact Nat.zero_le _
  | cons chunk others ih =>
      cases others with
      | nil => exact Nat.succ_le_succ (Nat.zero_le _)
      | cons after others =>
          have hbreaks := bundle.one_le_lineBreaks chunk after
          rw [join, Text.byteLength_append, Text.byteLength_append,
            byteLength_replicate_lineFeed, List.length_cons]
          omega

end Places

/-- The output is the joined chunks and a line break behind the last one. -/
theorem generate_eq_ok {output : Output} (h : bundle.generate = .ok output) :
    ∃ chunks, bundle.chunks = .ok chunks ∧
      ∃ rest, output.code.toList = bundle.join chunks ++ rest := by
  rw [generate] at h
  obtain ⟨found, hfound, hoks⟩ := Except.bind_eq_ok_iff.mp h
  obtain rfl := Except.ok.inj hoks
  refine ⟨found.flatten, ?_, ?_⟩
  · rw [chunks, hfound]
    rfl
  · dsimp only
    split
    · exact ⟨[], by simp⟩
    · exact ⟨['\n'], by simp⟩

/-- The statement of each chunk is found at its place in the output. -/
theorem map_slice_statementPlaces {output : Output}
    (h : bundle.generate = .ok output) :
    ∃ chunks, bundle.chunks = .ok chunks ∧
      bundle.statementPlaces.map (Text.slice output.code.toList) =
        chunks.map (·.statement) := by
  obtain ⟨chunks, hchunks, rest, hcode⟩ := generate_eq_ok h
  refine ⟨chunks, hchunks, ?_⟩
  rw [statementPlaces, hchunks, hcode]
  exact map_slice_places [] rest chunks

/-- A module with a declaration that another one calls. -/
def calledAcross (declaration : String) : Files := .ofList
  [(⟨"/a.js"⟩, declaration),
   (⟨"/m.js"⟩, "import { x } from './a';\n(x)();")]

end Bundle

end Bundler
