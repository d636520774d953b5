import OsTools.Lib.Tally
import OsTools.Lib.Text
import OsTools.MapReduce.Codec
/-!
# OsTools.MapReduce.Apps

The applications that count: words (`app/wc.rs`) and the degrees of the vertices of a graph
(`app/vertex_degree.rs`), with `ihash` of `lib.rs`.

Both emit the number one for every occurrence of a key, as eight bytes, and add the numbers up.
They differ in what a key is and in the order in which `process_output` lists the sums.

What a text is to Rust, and what of Unicode the code asks for, is in `OsTools.Lib.Text`. The
tables of letters and of lower case are parameters of `wc`; nothing is assumed of them, so
that the theorems hold for every version of Unicode.
-/

namespace OsTools.MapReduce

open Text

structure KeyValue where
  key : Bytes
  value : Bytes
  deriving DecidableEq

/-- The errors of an application, and the panics. -/
inductive AppError
  /-- `FromUtf8Error`. -/
  | utf8
  /-- `anyhow!`. -/
  | message (text : String)
  /-- `ParseIntError`. -/
  | parseInt
  /-- The panic of `get_u64` on fewer than eight bytes. -/
  | advance
  /-- The panic of an addition that overflows. -/
  | overflow
  deriving DecidableEq

/-- A map reduce application. -/
structure App where
  mapFn : KeyValue → Bytes → Except AppError (List KeyValue)
  reduceFn : Bytes → List Bytes → Bytes → Except AppError Bytes
  processOutputFn : List KeyValue → Except AppError Str

/-! ### Values -/

/-- `string_from_bytes` (`utils.rs`). -/
def stringFromBytes (buf : Bytes) : Except AppError Str :=
  match fromUtf8 buf with
  | some s => .ok s
  | none => .error .utf8

/-- `BufMut::put_u64`. -/
def putU64 (buf : Bytes) (v : Nat) : Bytes := buf ++ BigEndian.toBytes 8 v

/-- `Buf::get_u64`: the number, and the rest of the buffer. -/
def getU64 (buf : Bytes) : Except AppError (Nat × Bytes) :=
  if buf.length < 8 then .error .advance
  else .ok (BigEndian.ofBytes (buf.take 8), buf.drop 8)

/-- `+=` on a `u64`. -/
def addU64 (a b : Nat) : Except AppError Nat :=
  if a + b < 2 ^ 64 then .ok (a + b) else .error .overflow

/-- The sum of the numbers in the values, the `reduce` of both applications. -/
def sumReduce (_key : Bytes) (values : List Bytes) (_aux : Bytes) : Except AppError Bytes := do
  let count ← values.foldlM (fun count value => do
    let (v, _) ← getU64 value
    addU64 count v) 0
  .ok (putU64 [] count)

/-- `ihash`: the FNV-1a hash from the key 0 on, less its upper bits. -/
def ihash (key : Bytes) : Nat :=
  let hash := key.foldl (fun hash b => (hash ^^^ b.toUInt64) * 0x100000001b3) (0 : UInt64)
  (hash &&& 0x7fffffff).toNat

/-- `ihash` is a `u32`, so that its conversion does not panic. -/
theorem ihash_lt (key : Bytes) : ihash key < 2 ^ 32 := by
  have hle : ∀ hash : UInt64, (hash &&& 0x7fffffff).toNat ≤ 0x7fffffff := fun hash => by
    rw [UInt64.toNat_and]
    exact Nat.and_le_right
  exact Nat.lt_of_le_of_lt (hle _) (by decide)

/-- The reduce bucket of a key. -/
def ihashBucket {nReduce : Nat} (h : 0 < nReduce) (key : Bytes) : Fin nReduce :=
  ⟨ihash key % nReduce, Nat.mod_lt _ h⟩

/-! ### Word count -/

namespace Wc

variable (isAlphabetic : Char → Bool) (toLowercase : Str → Str)

/-- The words of a text: the non-empty pieces between other characters, in lower case. -/
def words (s : Str) : List Str :=
  ((s.splitOnP fun c => !isAlphabetic c).filter fun piece => !piece.isEmpty).map toLowercase

/-- `map`: a pair for each word. -/
def map (kv : KeyValue) (_aux : Bytes) : Except AppError (List KeyValue) := do
  let s ← stringFromBytes kv.value
  .ok ((words isAlphabetic toLowercase s).map fun word => ⟨Text.utf8 word, putU64 [] 1⟩)

def reduce : Bytes → List Bytes → Bytes → Except AppError Bytes := sumReduce

/-- The comparison that sorts the output: by the count, then by the bytes of the word. -/
def cmp (a b : Str × Nat) : Ordering :=
  (compare a.2 b.2).then (compare (Text.utf8 a.1) (Text.utf8 b.1))

/-- `writeln!` of the count and the word. -/
def line (entry : Str × Nat) : Str := decimal entry.2 ++ '\t' :: entry.1 ++ ['\n']

def processOutput (kva : List KeyValue) : Except AppError Str := do
  let decoded ← kva.mapM fun kv => do
    let k ← stringFromBytes kv.key
    let (v, _) ← getU64 kv.value
    .ok (k, v)
  .ok ((sortBy cmp decoded).flatMap line)

/-- The application `wc`, for the tables `char::is_alphabetic` and `str::to_lowercase` of
Unicode. -/
def app : App where
  mapFn := map isAlphabetic toLowercase
  reduceFn := reduce
  processOutputFn := processOutput

end Wc

/-! ### Vertex degree -/

namespace VertexDegree

/-- The next field of a line, as a number. -/
def nextVertex (fields : List Str) : Except AppError (Nat × List Str) :=
  match fields with
  | [] => .error (.message "Invalid input file format")
  | field :: rest =>
      match parseU64 field with
      | some n => .ok (n, rest)
      | none => .error .parseInt

/-- `parse_line`: the first two fields of a line. -/
def parseLine (line : Str) : Except AppError (Nat × Nat) := do
  let (a, fields) ← nextVertex ((splitWhitespace line).take 2)
  let (b, _) ← nextVertex fields
  .ok (a, b)

/-- The edges in a text, one to a line. -/
def parseEdges (s : Str) : Except AppError (List (Nat × Nat)) := (lines s).mapM parseLine

/-- `map`: a pair for both ends of each edge. -/
def map (kv : KeyValue) (_aux : Bytes) : Except AppError (List KeyValue) := do
  let s ← stringFromBytes kv.value
  let edges ← parseEdges s
  .ok (edges.flatMap fun (a, b) => [⟨putU64 [] a, putU64 [] 1⟩, ⟨putU64 [] b, putU64 [] 1⟩])

def reduce : Bytes → List Bytes → Bytes → Except AppError Bytes := sumReduce

/-- The comparison that sorts the output: by the vertex. -/
def cmp (a b : Nat × Nat) : Ordering := compare a.1 b.1

/-- `writeln!` of the vertex and its degree. -/
def line (entry : Nat × Nat) : Str := decimal entry.1 ++ '\t' :: decimal entry.2 ++ ['\n']

def processOutput (kva : List KeyValue) : Except AppError Str := do
  let decoded ← kva.mapM fun kv => do
    let (vertex, _) ← getU64 kv.key
    let (degree, _) ← getU64 kv.value
    .ok (vertex, degree)
  .ok ((sortBy cmp decoded).flatMap line)

/-- The application `vertex-degree`. -/
def app : App where
  mapFn := map
  reduceFn := reduce
  processOutputFn := processOutput

end VertexDegree

end OsTools.MapReduce
