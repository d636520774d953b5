import Mathlib.Data.List.Infix
import OsTools.Lib.RelativePath
import OsTools.MapReduce.Counting
/-!
# OsTools.MapReduce.Grep

The application that searches (`app/grep.rs`). `map` emits every line of a file that contains the
term, with its number in front of it; `reduce` puts the lines of a file into a stream of packets;
`process_output` reads the packets again and prints them under the name of the file.

A line reaches the output through two encodings, the number in front of the text and the frame
around both. `grep_output` is that the composition undoes them for all lines that a packet can hold,
whatever they contain.

## Proof shape

The values of a key are the lines of one file in order (`valuesOf_path`), because the paths
are distinct and grouping keeps the order of what has the same key. `reduce` frames them,
and reading them back is the round trip of `OsTools.MapReduce.Codec` with the number in
front of each line taken off again. The reduced pairs reach the output in any order and are
sorted by the path.

A line that is too long for a packet makes the job panic. The equivalence of `grep_output`
needs this in both directions: `reduceAll_ok` for jobs whose lines fit, and `fits_of_prints`
for jobs that print anything.
-/

namespace OsTools.MapReduce.Grep

open Text
open LengthDelimitedReader (frame)

/-- The errors of `grep`, and the panics. -/
inductive Error
  /-- Those that the applications share. -/
  | app (e : AppError)
  | codec (panic : Panic)
  /-- `clap::Error`. -/
  | clap
  /-- The panic of `unwrap` on an error. -/
  | unwrap
  deriving DecidableEq

variable {α β : Type}

def ofApp (x : Except AppError α) : Except Error α := x.mapError .app

def ofCodec (x : Except Panic α) : Except Error α := x.mapError .codec

/-- `unwrap`; what has panicked before does not come so far. -/
def unwrap : Except Error α → Except Error α
  | .ok a => .ok a
  | .error (.codec panic) => .error (.codec panic)
  | .error _ => .error .unwrap

/-- `for packet in reader`, with what the body makes of each of the packets. -/
def eachPacket (body : Bytes → Except Error β) (r : LengthDelimitedReader) :
    Except Error (List β) :=
  match _h : r.next with
  | .error panic => .error (.codec panic)
  | .ok none => .ok []
  | .ok (some (packet, r')) => do
      let b ← body packet
      let bs ← eachPacket body r'
      .ok (b :: bs)
termination_by r.buf.length
decreasing_by exact LengthDelimitedReader.next_shorter _h

/-! ### The application -/

section App

-- `Args::try_parse_from`: the term that the arguments name
variable (tryParseFrom : List Str → Option Str)

def deserializeArgs (buf : Bytes) : Except Error Str := do
  let args ← eachPacket (fun arg => ofApp (stringFromBytes arg)) (.new buf)
  match tryParseFrom args with
  | some term => .ok term
  | none => .error .clap

/-- `str::contains`. -/
def contains (s term : Str) : Bool := term <:+: s

/-- The lines with the term, and their numbers from one on. -/
def matchingLines (term s : Str) : List (Nat × Str) :=
  ((lines s).zipIdx.filter fun (s, _) => contains s term).map fun (s, i) => (i + 1, s)

/-- `BytesMut::split`: the contents, and the buffer without them. -/
def split (buf : Bytes) : Bytes × Bytes := (buf, [])

/-- The closure of `map`: the pair of a line, and the two buffers that it leaves. -/
def emitLine (key : Bytes) (keyBuf valueBuf : Bytes) (line : Nat × Str) :
    KeyValue × Bytes × Bytes :=
  let keyBuf := keyBuf ++ key
  let valueBuf := putU64 valueBuf line.1 ++ Text.utf8 line.2
  -- `split` leaves both buffers empty for the next line
  let (key, keyBuf) := split keyBuf
  let (value, valueBuf) := split valueBuf
  (⟨key, value⟩, keyBuf, valueBuf)

def emitLines (key : Bytes) : Bytes → Bytes → List (Nat × Str) → List KeyValue
  | _, _, [] => []
  | keyBuf, valueBuf, line :: lines =>
      let (kv, keyBuf, valueBuf) := emitLine key keyBuf valueBuf line
      kv :: emitLines key keyBuf valueBuf lines

def map (kv : KeyValue) (aux : Bytes) : Except Error (List KeyValue) := do
  let term ← unwrap (deserializeArgs tryParseFrom aux)
  let s ← ofApp (stringFromBytes kv.value)
  .ok (emitLines kv.key [] [] (matchingLines term s))

def reduce (_key : Bytes) (values : List Bytes) (_aux : Bytes) : Except Error Bytes :=
  ofCodec (writePackets values)

/-- `Path::file_name`: the last component, if it is a name. A slash or a dot behind it does not
count. -/
def fileName (path : Str) : Option Str :=
  let last := ((RelativePath.components path).filter fun c => c ≠ [] ∧ c ≠ ['.']).getLast?
  last.filter fun c => !RelativePath.isUp c

/-- The file name, or the error. `to_str` does not fail on a part of a `String`. -/
def fileNameOf (path : Str) : Except Error Str :=
  match fileName path with
  | some name => .ok name
  | none => .error (.app (.message "Failed to get file name"))

/-- `writeln!` of a number and a line. -/
def line (hit : Str × Nat) : Str := '\t' :: decimal hit.2 ++ ": ".toList ++ hit.1 ++ ['\n']

/-- What is printed of a packet. -/
def printLine (value : Bytes) : Except Error Str := do
  let (lineNum, value) ← ofApp (getU64 value)
  let s ← ofApp (stringFromBytes value)
  .ok (line (s, lineNum))

/-- What is printed of a pair. -/
def printFile (kv : KeyValue) : Except Error Str := do
  let filePath ← ofApp (stringFromBytes kv.key)
  let name ← fileNameOf filePath
  let lines ← eachPacket printLine (.new kv.value)
  .ok (name ++ ":\n".toList ++ lines.flatten)

/-- The comparison that sorts the output: by the bytes of the path. -/
def cmp (a b : KeyValue) : Ordering := compare a.key b.key

def processOutput (kva : List KeyValue) : Except Error Str := do
  let files ← (sortBy cmp kva).mapM printFile
  .ok files.flatten

/-! ### Jobs -/

/-- The pairs that `map` emits for all of the inputs. -/
def mapAll (inputs : List KeyValue) (aux : Bytes) : Except Error (List KeyValue) := do
  let outputs ← inputs.mapM fun kv => map tryParseFrom kv aux
  .ok outputs.flatten

/-- The job on the inputs prints `out`, in whatever order the reduced pairs reach `process_output`.
The values of a key reach `reduce` in the order in which they were emitted. -/
def Prints (inputs : List KeyValue) (aux : Bytes) (out : Str) : Prop :=
  ∃ emitted, mapAll tryParseFrom inputs aux = .ok emitted ∧
    ∀ g : Grouping (emitted.map KeyValue.toPair),
      (∀ key, g.values key = valuesOf (emitted.map KeyValue.toPair) key) →
        ∃ reduced, g.reduceAll (fun key values => reduce key values aux) = .ok reduced ∧
          ∀ kva : List KeyValue, (kva.map KeyValue.toPair).Perm reduced →
            processOutput kva = .ok out

end App

/-- `isize::MAX`, more bytes than which no `String` has. -/
def isizeMax : Nat := 2 ^ 63 - 1

/-- A file: its path, and its text. -/
structure TextFile where
  path : Str
  text : Str
  text_size : (Text.utf8 text).length ≤ isizeMax

namespace TextFile

def input (f : TextFile) : KeyValue := ⟨Text.utf8 f.path, Text.utf8 f.text⟩

/-- The lines of the text that contain the term, in order, with their numbers from one on. -/
def hits (term : Str) (f : TextFile) : List (Str × Nat) :=
  ((lines f.text).zipIdx 1).filter fun hit => term <:+: hit.1

/-- The file name, and the lines with the term below it. -/
def listing (term : Str) (f : TextFile) : Str :=
  (fileName f.path).getD [] ++ ":\n".toList ++ (f.hits term).flatMap line

/-- The lines with the term fit into a packet, each with its number. -/
def Fits (term : Str) (f : TextFile) : Prop :=
  ∀ hit ∈ f.hits term, 8 + (Text.utf8 hit.1).length ≤ u32Max

end TextFile

/-- The files that have a line with the term, in ascending order of their paths. -/
structure Listed (term : Str) (files listed : List TextFile) : Prop where
  ascending : listed.Pairwise fun a b => compare (Text.utf8 a.path) (Text.utf8 b.path) = .lt
  mem_iff : ∀ f, f ∈ listed ↔ f ∈ files ∧ f.hits term ≠ []

/-! ### Values -/

/-- The value of a line. -/
def packed (hit : Str × Nat) : Bytes := putU64 [] hit.2 ++ Text.utf8 hit.1

theorem length_packed (hit : Str × Nat) : (packed hit).length = 8 + (Text.utf8 hit.1).length := by
  unfold packed
  rw [putU64_nil, List.length_append, BigEndian.length_toBytes]

theorem getU64_append {v : Nat} (h : v < 2 ^ 64) (rest : Bytes) :
    getU64 (putU64 [] v ++ rest) = .ok (v, rest) := by
  have hlen : (BigEndian.toBytes 8 v).length = 8 := BigEndian.length_toBytes 8 v
  rw [putU64_nil]
  unfold getU64
  rw [if_neg (by simp [hlen]), List.take_left' hlen, List.drop_left' hlen,
    BigEndian.ofBytes_toBytes_of_lt h]

theorem ofApp_stringFromBytes (s : Str) : ofApp (stringFromBytes (Text.utf8 s)) = .ok s := by
  rw [stringFromBytes_utf8]
  rfl

theorem printLine_packed {hit : Str × Nat} (h : hit.2 < 2 ^ 64) :
    printLine (packed hit) = .ok (line hit) := by
  have hnum : ofApp (getU64 (packed hit)) = .ok (hit.2, Text.utf8 hit.1) := by
    unfold packed
    rw [getU64_append h]
    rfl
  unfold printLine
  rw [hnum, ok_bind]
  dsimp only
  rw [ofApp_stringFromBytes, ok_bind]

/-- The buffers are empty again for every line. -/
theorem emitLines_nil (key : Bytes) (lines : List (Nat × Str)) :
    emitLines key [] [] lines = lines.map fun l => ⟨key, packed l.swap⟩ := by
  induction lines with
  | nil => rfl
  | cons l lines ih =>
      rw [emitLines, List.map_cons, ← ih]
      rfl

theorem matchingLines_eq (term : Str) (f : TextFile) :
    matchingLines term f.text = (f.hits term).map Prod.swap := by
  unfold matchingLines TextFile.hits
  rw [List.zipIdx_succ (i := 0), List.filter_map, List.map_map]
  rfl

/-- A line number is a `u64`. -/
theorem hits_lt {term : Str} {f : TextFile} : ∀ hit ∈ f.hits term, hit.2 < 2 ^ 64 := by
  intro hit hhit
  have hmem := (List.mem_filter.mp hhit).1
  have hlt := List.snd_lt_add_of_mem_zipIdx hmem
  have hlines := length_lines_le f.text
  have hbytes := length_le_utf8 f.text
  have hsize := f.text_size
  unfold isizeMax at hsize
  omega

/-! ### Packets -/

theorem eachPacket_nil (body : Bytes → Except Error β) : eachPacket body (.new []) = .ok [] := by
  rw [eachPacket]
  simp [LengthDelimitedReader.next, LengthDelimitedReader.new]

theorem eachPacket_frame {packet : Bytes} (hlen : packet.length ≤ u32Max)
    (body : Bytes → Except Error β) (buf : Bytes) :
    eachPacket body (.new (frame packet ++ buf)) =
      (body packet >>= fun b => eachPacket body (.new buf) >>= fun bs => .ok (b :: bs)) := by
  have hnext := LengthDelimitedReader.next_frame hlen buf
  rw [eachPacket]
  split
  · simp_all
  · simp_all
  · rename_i c r' hsome
    rw [hnext] at hsome
    obtain ⟨rfl, rfl⟩ := Prod.mk.inj (Option.some.inj (Except.ok.inj hsome))
    rfl

/-- **The loop over the packets** that were written. -/
theorem eachPacket_frames (body : Bytes → Except Error β) {packets : List Bytes}
    (hall : ∀ p ∈ packets, p.length ≤ u32Max) :
    eachPacket body (.new (packets.flatMap frame)) = packets.mapM body := by
  induction packets with
  | nil => exact eachPacket_nil body
  | cons packet packets ih =>
      rw [List.flatMap_cons, eachPacket_frame (hall packet List.mem_cons_self),
        ih fun p hp => hall p (List.mem_cons_of_mem _ hp), List.mapM_cons]
      rfl

/-! ### Mapping -/

variable {tryParseFrom : List Str → Option Str} {aux : Bytes} {term : Str}
  {f : TextFile} {files : List TextFile}

/-- The pairs of the lines of a file. -/
def pairs (term : Str) (f : TextFile) : List KeyValue :=
  (f.hits term).map fun hit => ⟨Text.utf8 f.path, packed hit⟩

theorem map_input (haux : deserializeArgs tryParseFrom aux = .ok term) (f : TextFile) :
    map tryParseFrom f.input aux = .ok (pairs term f) := by
  have htext : ofApp (stringFromBytes f.input.value) = .ok f.text := ofApp_stringFromBytes f.text
  unfold map
  rw [haux]
  dsimp only [unwrap]
  rw [ok_bind, htext, ok_bind, emitLines_nil, matchingLines_eq, List.map_map]
  rfl

theorem mapAll_input (haux : deserializeArgs tryParseFrom aux = .ok term)
    (files : List TextFile) :
    mapAll tryParseFrom (files.map TextFile.input) aux = .ok (files.flatMap (pairs term)) := by
  have hmap : (files.map TextFile.input).mapM (fun kv => map tryParseFrom kv aux) =
      .ok (files.map (pairs term)) := by
    rw [List.mapM_map]
    exact mapM_ok fun f _ => map_input haux f
  unfold mapAll
  rw [hmap, ok_bind, List.flatMap_def]

/-! ### Grouping -/

/-- What is emitted for the files. -/
def emittedPairs (term : Str) (files : List TextFile) : List (Bytes × Bytes) :=
  (files.flatMap (pairs term)).map KeyValue.toPair

theorem emittedPairs_cons : emittedPairs term (f :: files) =
    ((f.hits term).map fun hit => (Text.utf8 f.path, packed hit)) ++ emittedPairs term files := by
  unfold emittedPairs pairs
  rw [List.flatMap_cons, List.map_append, List.map_map]
  rfl

theorem mem_keys (key : Bytes) : key ∈ (emittedPairs term files).map Prod.fst ↔
    ∃ f ∈ files, f.hits term ≠ [] ∧ Text.utf8 f.path = key := by
  induction files with
  | nil => simp [emittedPairs]
  | cons f files ih =>
      rw [emittedPairs_cons, List.map_append, List.mem_append, ih, List.exists_mem_cons_iff]
      refine or_congr_left ?_
      rw [List.map_map]
      constructor
      · intro hmem
        obtain ⟨hit, hhit, rfl⟩ := List.mem_map.mp hmem
        exact ⟨List.ne_nil_of_mem hhit, rfl⟩
      · rintro ⟨hne, rfl⟩
        obtain ⟨hit, hhit⟩ := List.exists_mem_of_ne_nil _ hne
        exact List.mem_map.mpr ⟨hit, hhit, rfl⟩

theorem valuesOf_append (xs ys : List (Bytes × Bytes)) (key : Bytes) :
    valuesOf (xs ++ ys) key = valuesOf xs key ++ valuesOf ys key := by
  unfold valuesOf
  rw [List.filter_append, List.map_append]

theorem valuesOf_of_not_mem {xs : List (Bytes × Bytes)} {key : Bytes}
    (h : key ∉ xs.map Prod.fst) : valuesOf xs key = [] := by
  have hnone : xs.filter (fun p => p.1 = key) = [] := by
    rw [List.filter_eq_nil_iff]
    intro p hp heq
    exact h (List.mem_map.mpr ⟨p, hp, of_decide_eq_true heq⟩)
  unfold valuesOf
  rw [hnone, List.map_nil]

/-- The values of one file alone. -/
theorem valuesOf_file (term : Str) (f : TextFile) (key : Bytes) :
    valuesOf ((f.hits term).map fun hit => (Text.utf8 f.path, packed hit)) key =
      if Text.utf8 f.path = key then (f.hits term).map packed else [] := by
  unfold valuesOf
  by_cases hkey : Text.utf8 f.path = key
  · simp [hkey, List.filter_map, Function.comp_def]
  · simp [hkey, List.filter_map, Function.comp_def]

/-- **The values of a key** are the lines of its file, in order: no other has its path. -/
theorem valuesOf_path (hpaths : (files.map TextFile.path).Nodup) (hf : f ∈ files) :
    valuesOf (emittedPairs term files) (Text.utf8 f.path) = (f.hits term).map packed := by
  induction files with
  | nil => simp at hf
  | cons f' files ih =>
      rw [List.map_cons, List.nodup_cons] at hpaths
      obtain ⟨hnew, hpaths⟩ := hpaths
      rw [emittedPairs_cons, valuesOf_append, valuesOf_file]
      by_cases hsame : f = f'
      · subst hsame
        -- no file behind it has the same path
        have hrest : valuesOf (emittedPairs term files) (Text.utf8 f.path) = [] := by
          refine valuesOf_of_not_mem fun hmem => ?_
          obtain ⟨g, hg, -, hkey⟩ := (mem_keys _).mp hmem
          exact hnew (List.mem_map.mpr ⟨g, hg, utf8_injective hkey⟩)
        rw [if_pos rfl, hrest, List.append_nil]
      · have hmem := List.mem_of_ne_of_mem hsame hf
        have hother : Text.utf8 f'.path ≠ Text.utf8 f.path := by
          intro hkey
          rw [utf8_injective hkey] at hnew
          exact hnew (List.mem_map_of_mem hmem)
        rw [if_neg hother, List.nil_append, ih hpaths hmem]

/-! ### Reducing -/

theorem ofCodec_eq_ok {x : Except Panic α} {a : α} : ofCodec x = .ok a ↔ x = .ok a := by
  unfold ofCodec
  cases x with
  | error e => simp [Except.mapError]
  | ok b => simp [Except.mapError]

/-- **When `reduce` returns**, and what. -/
theorem reduce_eq_ok {key buf : Bytes} {values : List Bytes} : reduce key values aux = .ok buf ↔
    (∀ p ∈ values, p.length ≤ u32Max) ∧ buf = values.flatMap frame := by
  unfold reduce
  rw [ofCodec_eq_ok]
  exact write_spec

theorem fits_iff : f.Fits term ↔ ∀ p ∈ (f.hits term).map packed, p.length ≤ u32Max := by
  unfold TextFile.Fits
  rw [List.forall_mem_map]
  simp only [length_packed]

/-- The files that have a line with the term. -/
def matchingFiles (term : Str) (files : List TextFile) : List TextFile :=
  files.filter fun f => f.hits term ≠ []

/-- The pair of a file that `reduce` leaves. -/
def reducedPair (term : Str) (f : TextFile) : KeyValue :=
  ⟨Text.utf8 f.path, ((f.hits term).map packed).flatMap frame⟩

theorem mem_matchingFiles : f ∈ matchingFiles term files ↔ f ∈ files ∧ f.hits term ≠ [] := by
  unfold matchingFiles
  rw [List.mem_filter, decide_eq_true_iff]

theorem path_inj (hpaths : (files.map TextFile.path).Nodup) {g : TextFile} (hf : f ∈ files)
    (hg : g ∈ files) (h : Text.utf8 f.path = Text.utf8 g.path) : f = g :=
  List.inj_on_of_nodup_map hpaths hf hg (utf8_injective h)

theorem matchingFiles_nodup (hpaths : (files.map TextFile.path).Nodup) :
    (matchingFiles term files).Nodup :=
  hpaths.of_map.filter _

/-- Every file with a line that contains the term is one key. -/
theorem keys_perm (hpaths : (files.map TextFile.path).Nodup)
    (g : Grouping (emittedPairs term files)) :
    g.allKeys.Perm ((matchingFiles term files).map fun f => Text.utf8 f.path) := by
  have hnodup : ((matchingFiles term files).map fun f => Text.utf8 f.path).Nodup := by
    refine List.Nodup.map_on (fun f hf f' hf' h => ?_) (matchingFiles_nodup hpaths)
    exact path_inj hpaths (mem_matchingFiles.mp hf).1 (mem_matchingFiles.mp hf').1 h
  refine (List.perm_ext_iff_of_nodup g.allKeys_nodup hnodup).mpr fun key => ?_
  rw [g.mem_allKeys, mem_keys, List.mem_map]
  simp only [mem_matchingFiles, and_assoc]

/-- **The reduced pairs** are the streams of the files, in some order. -/
theorem reduceAll_ok (hpaths : (files.map TextFile.path).Nodup)
    (hfits : ∀ f ∈ files, f.Fits term) (g : Grouping (emittedPairs term files))
    (horder : ∀ key, g.values key = valuesOf (emittedPairs term files) key) :
    ∃ reduced, g.reduceAll (fun key values => reduce key values aux) = .ok reduced ∧
      reduced.Perm (((matchingFiles term files).map (reducedPair term)).map KeyValue.toPair) := by
  have hreduce : ∀ key ∈ (emittedPairs term files).map Prod.fst, reduce key (g.values key) aux =
      .ok ((valuesOf (emittedPairs term files) key).flatMap frame) := by
    intro key hkey
    obtain ⟨f, hf, -, rfl⟩ := (mem_keys key).mp hkey
    rw [horder, reduce_eq_ok, valuesOf_path hpaths hf]
    exact ⟨fits_iff.mp (hfits f hf), rfl⟩
  -- the keys come bucket by bucket, the files in their own order
  refine ⟨_, g.reduceAll_ok hreduce, ?_⟩
  refine ((keys_perm hpaths g).map _).trans (.of_eq ?_)
  rw [List.map_map, List.map_map]
  refine List.map_congr_left fun f hf => ?_
  simp only [Function.comp_apply, reducedPair, KeyValue.toPair,
    valuesOf_path hpaths (mem_matchingFiles.mp hf).1]

/-- If every key is reduced, the lines fit into packets. -/
theorem fits_of_reduceAll (hpaths : (files.map TextFile.path).Nodup)
    {g : Grouping (emittedPairs term files)}
    (horder : ∀ key, g.values key = valuesOf (emittedPairs term files) key)
    {reduced : List (Bytes × Bytes)}
    (h : g.reduceAll (fun key values => reduce key values aux) = .ok reduced) :
    ∀ f ∈ files, f.Fits term := by
  intro f hf
  by_cases hnone : f.hits term = []
  · intro hit hhit
    rw [hnone] at hhit
    cases hhit
  · -- the file is a key, so `reduce` has returned for its lines
    have hkey : Text.utf8 f.path ∈ g.allKeys :=
      (g.mem_allKeys _).mpr ((mem_keys _).mpr ⟨f, hf, hnone, rfl⟩)
    obtain ⟨_, hpair⟩ := mapM_mem h _ hkey
    obtain ⟨buf, hbuf, -⟩ := bind_eq_ok hpair
    rw [horder, valuesOf_path hpaths hf] at hbuf
    exact fits_iff.mpr (reduce_eq_ok.mp hbuf).1

/-! ### Output -/

instance : Std.TransCmp cmp :=
  inferInstanceAs (Std.TransCmp (compareOn fun kv : KeyValue => kv.key))

/-- The comparison of files by their paths. -/
def cmpPath (a b : TextFile) : Ordering := compare (Text.utf8 a.path) (Text.utf8 b.path)

instance : Std.TransCmp cmpPath :=
  inferInstanceAs (Std.TransCmp (compareOn fun f : TextFile => Text.utf8 f.path))

/-- What is printed of a file is read back from its packets. -/
theorem printFile_reduced (hname : (fileName f.path).isSome) (hfits : f.Fits term) :
    printFile (reducedPair term f) = .ok (f.listing term) := by
  obtain ⟨name, hname⟩ := Option.isSome_iff_exists.mp hname
  have hnameOf : fileNameOf f.path = .ok name := by
    unfold fileNameOf
    rw [hname]
  have hlines : ((f.hits term).map packed).mapM printLine = .ok ((f.hits term).map line) := by
    rw [List.mapM_map]
    exact mapM_ok fun hit hhit => printLine_packed (hits_lt hit hhit)
  unfold printFile reducedPair
  dsimp only
  rw [ofApp_stringFromBytes, ok_bind, hnameOf, ok_bind, eachPacket_frames _ (fits_iff.mp hfits),
    hlines, ok_bind]
  unfold TextFile.listing
  rw [hname, Option.getD_some, List.flatMap_def]

/-- The pairs are printed in the order of their paths, in whatever order they come. -/
theorem sortBy_reduced (hpaths : (files.map TextFile.path).Nodup) {kva : List KeyValue}
    (hkva : kva.Perm ((matchingFiles term files).map (reducedPair term))) :
    sortBy cmp kva = (sortBy cmpPath (matchingFiles term files)).map (reducedPair term) := by
  -- two pairs of one path are the same pair, so their order plays no role
  have hsort : sortBy cmp kva = sortBy cmp ((matchingFiles term files).map (reducedPair term)) := by
    refine sortBy_congr hkva fun a ha b hb hab => ?_
    obtain ⟨f, hf, rfl⟩ := List.mem_map.mp (hkva.mem_iff.mp ha)
    obtain ⟨g, hg, rfl⟩ := List.mem_map.mp (hkva.mem_iff.mp hb)
    have hpath : Text.utf8 f.path = Text.utf8 g.path := Std.LawfulEqOrd.eq_of_compare hab
    rw [path_inj hpaths (mem_matchingFiles.mp hf).1 (mem_matchingFiles.mp hg).1 hpath]
  rw [hsort, sortBy_map]
  rfl

theorem processOutput_reduced (hpaths : (files.map TextFile.path).Nodup)
    (hnames : ∀ f ∈ files, (fileName f.path).isSome) (hfits : ∀ f ∈ files, f.Fits term)
    {kva : List KeyValue}
    (hkva : kva.Perm ((matchingFiles term files).map (reducedPair term))) :
    processOutput kva =
      .ok ((sortBy cmpPath (matchingFiles term files)).flatMap (TextFile.listing term)) := by
  have hprint : ((sortBy cmpPath (matchingFiles term files)).map (reducedPair term)).mapM
      printFile = .ok ((sortBy cmpPath (matchingFiles term files)).map (TextFile.listing term)) := by
    rw [List.mapM_map]
    refine mapM_ok fun f hf => ?_
    have hmem := (mem_matchingFiles.mp ((sortBy_perm _ _).mem_iff.mp hf)).1
    exact printFile_reduced (hnames f hmem) (hfits f hmem)
  unfold processOutput
  rw [sortBy_reduced hpaths hkva, hprint, ok_bind, List.flatMap_def]

theorem listed_sortBy (hpaths : (files.map TextFile.path).Nodup) :
    Listed term files (sortBy cmpPath (matchingFiles term files)) where
  ascending := by
    have hinj : ∀ f ∈ matchingFiles term files, ∀ g ∈ matchingFiles term files,
        cmpPath f g = .eq → f = g := by
      intro f hf g hg hfg
      exact path_inj hpaths (mem_matchingFiles.mp hf).1 (mem_matchingFiles.mp hg).1
        (Std.LawfulEqOrd.eq_of_compare hfg)
    exact @ascending_sortBy TextFile cmpPath _ _ (matchingFiles_nodup hpaths) hinj
  mem_iff := fun f => (sortBy_perm _ _).mem_iff.trans mem_matchingFiles

/-- A job that prints anything has lines that fit into packets. -/
theorem fits_of_prints (haux : deserializeArgs tryParseFrom aux = .ok term)
    (hpaths : (files.map TextFile.path).Nodup) {out : Str}
    (h : Prints tryParseFrom (files.map TextFile.input) aux out) : ∀ f ∈ files, f.Fits term := by
  obtain ⟨emitted, hmap, hjobs⟩ := h
  rw [mapAll_input haux] at hmap
  obtain rfl := Except.ok.inj hmap
  -- one grouping is enough, that with a single bucket
  obtain ⟨reduced, hreduced, -⟩ := hjobs (Grouping.ofBucket _ 1 fun _ => 0) fun _ => rfl
  exact fits_of_reduceAll hpaths (fun _ => rfl) hreduced

/-- **The output of a job**: for every file that has a line with the term, in ascending order of the
paths, the file name and below it the lines with the term, each with its number. This is so exactly
if the lines with the term fit into packets; `send` panics at one that does not. -/
theorem grep_output (haux : deserializeArgs tryParseFrom aux = .ok term)
    (hpaths : (files.map TextFile.path).Nodup)
    (hnames : ∀ f ∈ files, (fileName f.path).isSome) :
    (∃ listed, Listed term files listed ∧
        Prints tryParseFrom (files.map TextFile.input) aux
          (listed.flatMap (TextFile.listing term))) ↔
      ∀ f ∈ files, f.Fits term := by
  constructor
  · rintro ⟨listed, -, h⟩
    exact fits_of_prints haux hpaths h
  · intro hfits
    refine ⟨_, listed_sortBy hpaths, _, mapAll_input haux files, fun g horder => ?_⟩
    obtain ⟨reduced, hreduced, hperm⟩ := reduceAll_ok hpaths hfits g horder
    refine ⟨reduced, hreduced, fun kva hkva => ?_⟩
    exact processOutput_reduced hpaths hnames hfits (toPair_perm (hkva.trans hperm))

/-! ### Jobs on some files -/

theorem toList_loop (b : ByteArray) (i : Nat) (r : Bytes) :
    ByteArray.toList.loop b i r = r.reverse ++ b.data.toList.drop i := by
  induction hrest : b.size - i generalizing i r with
  | zero =>
      have hend : ¬ i < b.size := by omega
      have hdrop : b.data.toList.drop i = [] := List.drop_of_length_le (Nat.not_lt.mp hend)
      rw [ByteArray.toList.loop, if_neg hend, hdrop, List.append_nil]
  | succ n ih =>
      have hlt : i < b.size := by omega
      have hlen : i < b.data.toList.length := hlt
      have hget : b.get! i = b.data.toList.get ⟨i, hlen⟩ := getElem!_pos b.data i hlt
      rw [ByteArray.toList.loop, if_pos hlt, ih _ _ (by omega), List.drop_eq_getElem_cons hlen,
        List.reverse_cons, List.append_assoc, hget]
      rfl

/-- The bytes of a `String` are those of its characters. -/
theorem utf8_eq (s : String) : MapReduce.utf8 s = Text.utf8 s.toList := by
  have hbytes : s.toUTF8 = s.toList.utf8Encode := String.utf8Encode_toList.symm
  unfold MapReduce.utf8 ByteArray.toList
  rw [toList_loop, hbytes]
  exact List.toList_data_toByteArray

/-- The term is the one in the arguments that the client has serialized. -/
theorem deserializeArgs_serializeArgs {args : List String} {buf : Bytes}
    (hbuf : serializeArgs args = .ok buf) (hterm : tryParseFrom (args.map String.toList) = some term) :
    deserializeArgs tryParseFrom buf = .ok term := by
  obtain ⟨hall, rfl⟩ := write_spec.mp hbuf
  have hargs : (args.map MapReduce.utf8).mapM (fun arg => ofApp (stringFromBytes arg)) =
      .ok (args.map String.toList) := by
    rw [List.mapM_map]
    refine mapM_ok fun arg _ => ?_
    rw [Function.comp_apply, utf8_eq, ofApp_stringFromBytes]
  unfold deserializeArgs
  rw [eachPacket_frames _ hall, hargs, ok_bind, hterm]

/-- The arguments with a term behind its flag. -/
def parseTerm : List Str → Option Str
  | [flag, term] => if flag = "--term".toList then some term else none
  | _ => none

/-- The bytes of `--term` and a term. -/
def termAux (term : String) : Bytes :=
  (["--term", term].map fun arg => Text.utf8 arg.toList).flatMap frame

theorem deserializeArgs_termAux {term : String} (hlen : (Text.utf8 term.toList).length ≤ u32Max) :
    deserializeArgs parseTerm (termAux term) = .ok term.toList := by
  have hflag : (Text.utf8 "--term".toList).length ≤ u32Max := by decide +kernel
  have hbuf : serializeArgs ["--term", term] = .ok (termAux term) := by
    have hbytes : ["--term", term].map MapReduce.utf8 =
        ["--term", term].map fun arg => Text.utf8 arg.toList :=
      List.map_congr_left fun arg _ => utf8_eq arg
    unfold serializeArgs
    rw [hbytes]
    refine write_spec.mpr ⟨fun packet hpacket => ?_, rfl⟩
    rcases List.mem_cons.mp hpacket with rfl | hpacket
    · exact hflag
    · rwa [List.mem_singleton.mp hpacket]
  have hterm : parseTerm (["--term", term].map String.toList) = some term.toList := by
    simp [parseTerm]
  exact deserializeArgs_serializeArgs hbuf hterm

def twoFiles : List TextFile :=
  [⟨"d/b".toList, "x\nfoo\n".toList, by decide +kernel⟩,
    ⟨"a".toList, "foo\r\n\na foo\r".toList, by decide +kernel⟩]

theorem grep_output_twoFiles : ∃ listed, Listed "foo".toList twoFiles listed ∧
    Prints parseTerm (twoFiles.map TextFile.input) (termAux "foo")
      (listed.flatMap (TextFile.listing "foo".toList)) := by
  have haux := @deserializeArgs_termAux "foo" (by decide +kernel)
  refine (grep_output haux (by decide +kernel) (by decide +kernel)).mpr ?_
  unfold TextFile.Fits
  decide +kernel

theorem length_utf8_replicate (n : Nat) : (Text.utf8 (List.replicate n 'a')).length = n := by
  induction n with
  | zero => rfl
  | succ n ih =>
      have hone : (String.utf8EncodeChar 'a').length = 1 := by decide
      unfold Text.utf8 at ih ⊢
      rw [List.replicate_succ, List.flatMap_cons, List.length_append, ih, hone, Nat.add_comm]

/-- A file that is one line. -/
def lineFile (n : Nat) (h : n ≤ isizeMax) : TextFile where
  path := ['a']
  text := List.replicate n 'a'
  text_size := by
    rw [length_utf8_replicate]
    exact h

theorem hits_lineFile {n : Nat} (hpos : 0 < n) (h : n ≤ isizeMax) :
    (lineFile n h).hits ['a'] = [(List.replicate n 'a', 1)] := by
  have hne : List.replicate n 'a' ≠ [] := by
    rw [Ne, List.replicate_eq_nil_iff]
    omega
  have hlines : lines (List.replicate n 'a') = [List.replicate n 'a'] := by
    refine lines_eq_singleton hne (fun hfeed => ?_) fun hreturn => ?_
    · exact absurd (List.eq_of_mem_replicate hfeed) (by decide)
    · have hmem := List.mem_of_getLast? hreturn
      exact absurd (List.eq_of_mem_replicate hmem) (by decide)
  have hinfix : ['a'] <:+: List.replicate n 'a' := by
    rw [List.singleton_infix_iff, List.mem_replicate]
    exact ⟨by omega, rfl⟩
  unfold TextFile.hits lineFile
  dsimp only
  rw [hlines, List.zipIdx_singleton, List.filter_cons_of_pos (by simpa using hinfix),
    List.filter_nil]

theorem not_fits {n : Nat} (hlarge : u32Max < 8 + n) (h : n ≤ isizeMax) :
    ¬ (lineFile n h).Fits ['a'] := by
  intro hfits
  have hpos : 0 < n := by
    unfold u32Max at hlarge
    omega
  have hmem : (List.replicate n 'a', 1) ∈ (lineFile n h).hits ['a'] := by
    rw [hits_lineFile hpos]
    exact List.mem_cons_self
  have hlen := hfits _ hmem
  rw [length_utf8_replicate] at hlen
  omega

/-- A line of four gibibytes does not fit into a packet. -/
theorem not_prints_huge :
    deserializeArgs parseTerm (termAux "a") = .ok ['a'] ∧
      fileName (lineFile (2 ^ 32) (by decide)).path = some ['a'] ∧
        ¬ ∃ out, Prints parseTerm ([lineFile (2 ^ 32) (by decide)].map TextFile.input)
          (termAux "a") out := by
  have haux : deserializeArgs parseTerm (termAux "a") = .ok ['a'] :=
    @deserializeArgs_termAux "a" (by decide +kernel)
  have hpaths : ([lineFile (2 ^ 32) (by decide)].map TextFile.path).Nodup := List.nodup_singleton _
  refine ⟨haux, by decide +kernel, ?_⟩
  rintro ⟨out, h⟩
  exact not_fits (by decide) (by decide) (fits_of_prints haux hpaths h _ List.mem_cons_self)

end OsTools.MapReduce.Grep
