import CycleEnum.Core.Graph
import CycleEnum.Core.Stream

namespace CycleEnum

-- The exceptions that reading a file can end in.
inductive ReadError where
  | graph_parse_error (what : String)
  | out_of_range (what : String)
deriving DecidableEq, Repr

-- The lines that `std::getline` reads one after the other.
def get_lines : List Char → List (List Char)
  | [] => []
  | c :: text =>
      if c = '\n' then [] :: get_lines text
      else match get_lines text with
        | [] => [[c]]
        | line :: lines => (c :: line) :: lines

def is_ignored_line (line : List Char) : Bool :=
  match line.dropWhile fun c => c = ' ' || c = '\t' || c = '\r' || c = '\n' with
  | [] => true
  | first :: _ => first = '#' || first = '%'

def line_error (path : String) (line_number : Nat) (reason : String) : ReadError :=
  .graph_parse_error (path ++ ":" ++ toString line_number ++ ": " ++ reason)

def kDefaultMissingTimestamp : Int := 0

-- Commas separate fields as blanks do.
def replace_commas (line : List Char) : List Char := line.map fun c => if c = ',' then ' ' else c

def read_row (path : String) (matrix_market : Bool) (line_number : Nat) (line : List Char) :
    Except ReadError RawTemporalEdge :=
  let row := Stream.of_text (replace_commas line)
  let (source, row) := row.extract_integer
  let (target, row) := row.extract_integer
  match source, target with
  | some source_external, some target_external =>
      if matrix_market then .ok ⟨source_external, target_external, kDefaultMissingTimestamp⟩
      else
        match row.extract_integer with
        | (none, row) =>
            if row.clear.extract_string.1.isSome then
              .error (line_error path line_number "third field is not an integer timestamp")
            else .ok ⟨source_external, target_external, kDefaultMissingTimestamp⟩
        | (some timestamp, row) =>
            if row.extract_string.1.isSome then
              .error (line_error path line_number
                "expected at most three fields: source target timestamp")
            else .ok ⟨source_external, target_external, timestamp⟩
  | _, _ =>
      .error (line_error path line_number
        "expected at least two fields: source target [timestamp]")

-- The variables of the loop over the lines.
structure Rows where
  mm_dimensions_pending : Bool
  line_number : Nat
  raw_edges : List RawTemporalEdge
deriving DecidableEq, Repr

def read_line (path : String) (matrix_market : Bool) (rows : Rows) (line : List Char) :
    Except ReadError Rows :=
  let rows := { rows with line_number := rows.line_number + 1 }
  if is_ignored_line line then .ok rows
  else if matrix_market && rows.mm_dimensions_pending then
    .ok { rows with mm_dimensions_pending := false }
  else
    (read_row path matrix_market rows.line_number line).map fun raw_edge =>
      if raw_edge.source = raw_edge.target then rows
      else { rows with raw_edges := rows.raw_edges ++ [raw_edge] }

def is_matrix_market (lines : List (List Char)) : Bool :=
  lines.head?.any fun line => "%%MatrixMarket".toList.isPrefixOf line

-- The rows of a file that are not self-loops.
def read_raw_edges (path : String) (text : List Char) : Except ReadError (List RawTemporalEdge) :=
  let lines := get_lines text
  let matrix_market := is_matrix_market lines
  let start : Rows × List (List Char) :=
    if matrix_market then (⟨true, 1, []⟩, lines.tail) else (⟨false, 0, []⟩, lines)
  (start.2.foldlM (read_line path matrix_market) start.1).map (·.raw_edges)

-- `compact_ids.at`. A vertex id has 32 bits.
def compact_id_at (external_ids : List Int) (external : Int) : Except ReadError Nat :=
  match external_ids.idxOf? external with
  | some index => .ok (index % 2 ^ 32)
  | none => .error (.out_of_range "unordered_map::at")

-- `grouped_edges`, iterated over after all timestamps are pushed back.
def group_edges (compacted : List ((Nat × Nat) × Int)) : List TemporalEdge :=
  (((compacted.map (·.1)).dedup).insertionSort endpoints_le).map fun endpoints =>
    ⟨endpoints.1, endpoints.2,
      ((compacted.filter (·.1 = endpoints)).map (·.2)).insertionSort (· ≤ ·)⟩

-- The graph of the rows of a file.
def parsed_graph (rows : List RawTemporalEdge) : TemporalGraph :=
  let raw_edges := kept_rows rows
  let external_ids := external_ids_of raw_edges
  ⟨external_ids, group_edges (raw_edges.map fun raw_edge =>
    ((external_ids.idxOf raw_edge.source % 2 ^ 32, external_ids.idxOf raw_edge.target % 2 ^ 32),
      raw_edge.timestamp))⟩

def compact_raw_edge (external_ids : List Int) (raw_edge : RawTemporalEdge) :
    Except ReadError ((Nat × Nat) × Int) := do
  let source ← compact_id_at external_ids raw_edge.source
  let target ← compact_id_at external_ids raw_edge.target
  return ((source, target), raw_edge.timestamp)

-- A file that cannot be opened is `none`.
def read_temporal_graph (path : String) (file : Option (List Char)) :
    Except ReadError TemporalGraph :=
  match file with
  | none => .error (.graph_parse_error ("failed to open temporal graph file: " ++ path))
  | some text => do
      let raw_edges ← read_raw_edges path text
      let external_ids := external_ids_of raw_edges
      let compacted ← raw_edges.mapM (compact_raw_edge external_ids)
      return ⟨external_ids, group_edges compacted⟩

example : read_temporal_graph "g.txt" (some "7 3 5\n# x\n3,7".toList) =
    .ok ⟨[3, 7], [⟨0, 1, [0]⟩, ⟨1, 0, [5]⟩]⟩ := by decide

example : read_temporal_graph "g.txt" (some "7 3 x".toList) =
    .error (.graph_parse_error "g.txt:1: third field is not an integer timestamp") := by decide

end CycleEnum
