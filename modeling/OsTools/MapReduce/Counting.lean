import OsTools.Lib.Grouping
import OsTools.MapReduce.Apps
/-!
# OsTools.MapReduce.Counting

Jobs of the counting applications. Between `map` and `process_output` the order of everything is
open: which bucket a key goes to, in which order its values reach `reduce`, in which order the
reduced pairs reach `process_output`. The output is the same for all of them, the tally of the
occurrences of the keys.

## Proof shape

Everything that may come in any order is a permutation. The emitted pairs are a permutation
of one pair for every occurrence, so that the values of a key are as many ones as it has
occurrences, whichever bucket they went through (`valuesOf_emit`); the reduced pairs are a
permutation of the counts (`reduceAll_emit`); and sorting by a comparison that tells the
keys apart makes one list of all the permutations (`sortBy_counts`). The two applications
are instances of `App.Counts`, with one lemma each.

A sum is a `u64`, and an addition that overflows panics. So each count is to be less than `2
^ 64`, which is a condition on the inputs alone, and there is no other.
-/

namespace OsTools.MapReduce

open Text

/-! ### Jobs -/

def KeyValue.toPair (kv : KeyValue) : Bytes × Bytes := (kv.key, kv.value)

/-- The pairs that `map` emits for all of the inputs. -/
def App.mapAll (app : App) (inputs : List KeyValue) (aux : Bytes) :
    Except AppError (List KeyValue) := do
  let outputs ← inputs.mapM fun kv => app.mapFn kv aux
  .ok outputs.flatten

/-- The job on the inputs outputs `out`, however the emitted pairs are grouped and in whatever order
the reduced pairs reach `process_output`. -/
def App.AlwaysOutputs (app : App) (inputs : List KeyValue) (aux : Bytes) (out : Str) : Prop :=
  ∃ emitted, app.mapAll inputs aux = .ok emitted ∧
    ∀ g : Grouping (emitted.map KeyValue.toPair), ∃ reduced,
      g.reduceAll (fun key values => app.reduceFn key values aux) = .ok reduced ∧
        ∀ kva : List KeyValue, (kva.map KeyValue.toPair).Perm reduced →
          app.processOutputFn kva = .ok out

/-- The occurrences of keys in all of the inputs. -/
def occurrencesIn {K : Type} (occurrences : KeyValue → Except AppError (List K))
    (inputs : List KeyValue) : Except AppError (List K) := do
  let keys ← inputs.mapM occurrences
  .ok keys.flatten

/-- The pairs in another order are the key values in another order. -/
theorem toPair_perm {kva kvs : List KeyValue}
    (h : (kva.map KeyValue.toPair).Perm (kvs.map KeyValue.toPair)) : kva.Perm kvs := by
  have hback := h.map fun p : Bytes × Bytes => (⟨p.1, p.2⟩ : KeyValue)
  rw [List.map_map, List.map_map] at hback
  have hid : ((fun p : Bytes × Bytes => (⟨p.1, p.2⟩ : KeyValue)) ∘ KeyValue.toPair) = id := rfl
  rwa [hid, List.map_id, List.map_id] at hback

/-! ### Values -/

theorem putU64_nil (v : Nat) : putU64 [] v = BigEndian.toBytes 8 v := List.nil_append _

theorem getU64_putU64 {v : Nat} (h : v < 2 ^ 64) : getU64 (putU64 [] v) = .ok (v, []) := by
  have hlen : (BigEndian.toBytes 8 v).length = 8 := BigEndian.length_toBytes 8 v
  rw [putU64_nil]
  unfold getU64
  rw [if_neg (by omega), List.take_of_length_le (by omega), List.drop_of_length_le (by omega),
    BigEndian.ofBytes_toBytes_of_lt h]

theorem stringFromBytes_utf8 (s : Str) : stringFromBytes (Text.utf8 s) = .ok s := by
  unfold stringFromBytes
  rw [fromUtf8_utf8]

/-- The sum of ones, added to what there is. -/
theorem foldlM_ones (n m : Nat) (h : m + n < 2 ^ 64) :
    (List.replicate n (putU64 [] 1)).foldlM (fun count value => do
      let (v, _) ← getU64 value
      addU64 count v) m = (.ok (m + n) : Except AppError Nat) := by
  induction n generalizing m with
  | zero => rfl
  | succ n ih =>
      have hadd : addU64 m 1 = .ok (m + 1) := by
        unfold addU64
        rw [if_pos (by omega)]
      rw [List.replicate_succ, List.foldlM_cons, getU64_putU64 (by decide), ok_bind]
      dsimp only
      rw [hadd, ok_bind, ih (m + 1) (by omega), Nat.add_right_comm]
      rfl

theorem sumReduce_ones {n : Nat} (h : n < 2 ^ 64) (key aux : Bytes) :
    sumReduce key (List.replicate n (putU64 [] 1)) aux = .ok (putU64 [] n) := by
  unfold sumReduce
  rw [foldlM_ones n 0 (by omega), Nat.zero_add]
  rfl

/-! ### Counting applications -/

section Counting

variable {K : Type}

/-- A pair with the number one for every occurrence of a key. -/
def emit (encode : K → Bytes) (keys : List K) : List KeyValue :=
  keys.map fun k => ⟨encode k, putU64 [] 1⟩

/-- `app` emits a one for every occurrence of a key, adds the ones up and lists the sums in the
order of `cmp`. -/
structure App.Counts (app : App) (occurrences : KeyValue → Except AppError (List K))
    (encode : K → Bytes) (decode : KeyValue → Except AppError (K × Nat))
    (cmp : K × Nat → K × Nat → Ordering) (line : K × Nat → Str) : Prop where
  map : ∀ kv aux keys, occurrences kv = .ok keys → app.mapFn kv aux = .ok (emit encode keys)
  reduce : ∀ key values aux, app.reduceFn key values aux = sumReduce key values aux
  output : ∀ kva, app.processOutputFn kva = do
    let decoded ← kva.mapM decode
    .ok ((sortBy cmp decoded).flatMap line)
  decode : ∀ kv keys, occurrences kv = .ok keys → ∀ k ∈ keys, ∀ n < 2 ^ 64,
    decode ⟨encode k, putU64 [] n⟩ = .ok (k, n)
  distinguish : ∀ a b, cmp a b = .eq → a.1 = b.1

variable {app : App} {occurrences : KeyValue → Except AppError (List K)} {encode : K → Bytes}
  {decode : KeyValue → Except AppError (K × Nat)} {cmp : K × Nat → K × Nat → Ordering}
  {line : K × Nat → Str} {inputs : List KeyValue} {keys : List K} {aux : Bytes}

theorem emit_flatten (kss : List (List K)) :
    (kss.map (emit encode)).flatten = emit encode kss.flatten := by
  unfold emit
  rw [List.map_flatten]

/-- The occurrences in the inputs one by one. -/
theorem occurrencesIn_eq_ok (h : occurrencesIn occurrences inputs = .ok keys) :
    ∃ kss, inputs.mapM occurrences = .ok kss ∧ keys = kss.flatten := by
  obtain ⟨kss, hkss, h⟩ := bind_eq_ok h
  cases h
  exact ⟨kss, hkss, rfl⟩

/-- Every occurrence is one in some input. -/
theorem mem_of_mapM {kss : List (List K)} (h : inputs.mapM occurrences = .ok kss) {k : K}
    (hk : k ∈ kss.flatten) : ∃ kv ks, occurrences kv = .ok ks ∧ k ∈ ks := by
  induction inputs generalizing kss with
  | nil =>
      cases h
      simp at hk
  | cons kv inputs ih =>
      obtain ⟨ks, rest, hks, hrest, rfl⟩ := mapM_cons_eq_ok h
      rw [List.flatten_cons, List.mem_append] at hk
      rcases hk with hk | hk
      · exact ⟨kv, ks, hks, hk⟩
      · exact ih hrest hk

theorem App.Counts.mapM (hc : app.Counts occurrences encode decode cmp line)
    {kss : List (List K)} (h : inputs.mapM occurrences = .ok kss) :
    (inputs.mapM fun kv => app.mapFn kv aux) = .ok (kss.map (emit encode)) := by
  induction inputs generalizing kss with
  | nil =>
      cases h
      rfl
  | cons kv inputs ih =>
      obtain ⟨ks, rest, hks, hrest, rfl⟩ := mapM_cons_eq_ok h
      exact mapM_cons_ok (hc.map kv aux ks hks) (ih hrest)

theorem App.Counts.mapAll (hc : app.Counts occurrences encode decode cmp line)
    (h : occurrencesIn occurrences inputs = .ok keys) :
    app.mapAll inputs aux = .ok (emit encode keys) := by
  obtain ⟨kss, hkss, rfl⟩ := occurrencesIn_eq_ok h
  unfold App.mapAll
  rw [hc.mapM hkss, ok_bind, emit_flatten]

/-- The sums are decoded again. -/
theorem App.Counts.decode_of_mem (hc : app.Counts occurrences encode decode cmp line)
    (h : occurrencesIn occurrences inputs = .ok keys) {k : K} (hk : k ∈ keys) {n : Nat}
    (hn : n < 2 ^ 64) : decode ⟨encode k, putU64 [] n⟩ = .ok (k, n) := by
  obtain ⟨kss, hkss, rfl⟩ := occurrencesIn_eq_ok h
  obtain ⟨kv, ks, hks, hmem⟩ := mem_of_mapM hkss hk
  exact hc.decode kv ks hks k hmem n hn

/-- The encoding tells the keys apart. -/
theorem App.Counts.encode_inj (hc : app.Counts occurrences encode decode cmp line)
    (h : occurrencesIn occurrences inputs = .ok keys) {k k' : K} (hk : k ∈ keys) (hk' : k' ∈ keys)
    (heq : encode k = encode k') : k = k' := by
  have hdecode := hc.decode_of_mem h hk (show 0 < 2 ^ 64 by decide)
  rw [heq, hc.decode_of_mem h hk' (by decide)] at hdecode
  exact (Prod.mk.inj (Except.ok.inj hdecode)).1.symm

/-- What is emitted for one key: as many ones as it has occurrences. -/
theorem valuesOf_emit (key : Bytes) :
    valuesOf ((emit encode keys).map KeyValue.toPair) key =
      List.replicate ((keys.map encode).count key) (putU64 [] 1) := by
  induction keys with
  | nil => rfl
  | cons k keys ih =>
      unfold valuesOf emit at ih ⊢
      by_cases hkey : encode k = key
      · simp [KeyValue.toPair, hkey, List.replicate_succ] at ih ⊢
        exact ih
      · simp [KeyValue.toPair, hkey] at ih ⊢
        exact ih

/-- The keys of the pairs are the encodings. -/
theorem emit_keys : ((emit encode keys).map KeyValue.toPair).map Prod.fst = keys.map encode := by
  unfold emit KeyValue.toPair
  simp

/-- The pairs that reach `process_output`, as those that were reduced. -/
theorem kva_perm {kva : List KeyValue} {f : K × Nat → Bytes × Bytes} {entries : List (K × Nat)}
    (h : (kva.map KeyValue.toPair).Perm (entries.map f)) :
    kva.Perm (entries.map fun e => ⟨(f e).1, (f e).2⟩) := by
  refine toPair_perm ?_
  rw [List.map_map]
  exact h

variable [DecidableEq K]

/-- A key occurs as often as its encoding. -/
theorem count_encode (hinj : ∀ k ∈ keys, ∀ k' ∈ keys, encode k = encode k' → k = k') {k : K}
    (hk : k ∈ keys) : (keys.map encode).count (encode k) = keys.count k := by
  unfold List.count
  rw [List.countP_map]
  refine List.countP_congr fun k' hk' => ?_
  simp only [Function.comp_apply, beq_iff_eq]
  constructor
  · exact hinj k' hk' k hk
  · intro heq
    rw [heq]

theorem dedup_encode (hinj : ∀ k ∈ keys, ∀ k' ∈ keys, encode k = encode k' → k = k') :
    (keys.map encode).dedup.Perm (keys.dedup.map encode) := by
  have hnodup : (keys.dedup.map encode).Nodup :=
    List.Nodup.map_on (fun k hk k' hk' => hinj k (List.mem_dedup.mp hk) k' (List.mem_dedup.mp hk'))
      (List.nodup_dedup keys)
  refine (List.perm_ext_iff_of_nodup (List.nodup_dedup _) hnodup).mpr fun key => ?_
  simp

/-- **The reduced pairs** are the encoded counts, in some order. -/
theorem reduceAll_emit (hinj : ∀ k ∈ keys, ∀ k' ∈ keys, encode k = encode k' → k = k')
    (hcount : ∀ e ∈ counts keys, e.2 < 2 ^ 64)
    (g : Grouping ((emit encode keys).map KeyValue.toPair)) :
    ∃ reduced, g.reduceAll (fun key values => sumReduce key values aux) = .ok reduced ∧
      reduced.Perm ((counts keys).map fun (k, n) => (encode k, putU64 [] n)) := by
  have hreduce : ∀ key ∈ ((emit encode keys).map KeyValue.toPair).map Prod.fst,
      sumReduce key (g.values key) aux = .ok (putU64 [] ((keys.map encode).count key)) := by
    intro key hkey
    have hperm := g.values_perm key
    rw [valuesOf_emit, List.perm_replicate] at hperm
    rw [emit_keys] at hkey
    obtain ⟨k, hk, rfl⟩ := List.mem_map.mp hkey
    rw [hperm, sumReduce_ones]
    rw [count_encode hinj hk]
    exact hcount _ (mem_counts.mpr ⟨hk, rfl⟩)
  refine ⟨_, g.reduceAll_ok hreduce, ?_⟩
  have hkeys : g.allKeys.Perm (keys.dedup.map encode) := by
    have hall := g.allKeys_perm
    rw [emit_keys] at hall
    exact hall.trans (dedup_encode hinj)
  have hpairs := hkeys.map fun key => (key, putU64 [] ((keys.map encode).count key))
  refine hpairs.trans (.of_eq ?_)
  unfold counts
  rw [List.map_map, List.map_map]
  refine List.map_congr_left fun k hk => ?_
  simp only [Function.comp_apply, count_encode hinj (List.mem_dedup.mp hk)]

/-- **A counting job** outputs the sorted counts of the occurrences. -/
theorem App.Counts.always [Std.TransCmp cmp]
    (hc : app.Counts occurrences encode decode cmp line)
    (h : occurrencesIn occurrences inputs = .ok keys) (hcount : ∀ e ∈ counts keys, e.2 < 2 ^ 64) :
    app.AlwaysOutputs inputs aux ((sortBy cmp (counts keys)).flatMap line) := by
  have hinj : ∀ k ∈ keys, ∀ k' ∈ keys, encode k = encode k' → k = k' :=
    fun k hk k' hk' => hc.encode_inj h hk hk'
  refine ⟨emit encode keys, hc.mapAll h, fun g => ?_⟩
  obtain ⟨reduced, hreduced, hperm⟩ := @reduceAll_emit K encode keys aux _ hinj hcount g
  refine ⟨reduced, ?_, fun kva hkva => ?_⟩
  · simp only [hc.reduce]
    exact hreduced
  · have hdecode : ((counts keys).map fun e =>
        (⟨encode e.1, putU64 [] e.2⟩ : KeyValue)).mapM decode = .ok (counts keys) := by
      rw [List.mapM_map, mapM_ok (g := id), List.map_id]
      rintro ⟨k, n⟩ he
      exact hc.decode_of_mem h (mem_counts.mp he).1 (hcount _ he)
    obtain ⟨decoded, hdecoded, hsame⟩ := mapM_perm (kva_perm (hkva.trans hperm)) hdecode
    rw [hc.output, hdecoded, ok_bind, sortBy_counts hc.distinguish hsame]

end Counting

/-! ### Word count -/

namespace Wc

variable (isAlphabetic : Char → Bool) (toLowercase : Str → Str)

/-- The words of an input. -/
def occurrences (kv : KeyValue) : Except AppError (List Str) := do
  let s ← stringFromBytes kv.value
  .ok ((runs isAlphabetic s).map toLowercase)

def decode (kv : KeyValue) : Except AppError (Str × Nat) := do
  let k ← stringFromBytes kv.key
  let (v, _) ← getU64 kv.value
  .ok (k, v)

instance : Std.TransCmp cmp :=
  inferInstanceAs (Std.TransCmp (compareLex (compareOn fun e : Str × Nat => e.2)
    (compareOn fun e : Str × Nat => Text.utf8 e.1)))

theorem occurrences_utf8 (key : Bytes) (s : Str) :
    occurrences isAlphabetic toLowercase ⟨key, Text.utf8 s⟩ =
      .ok ((runs isAlphabetic s).map toLowercase) := by
  unfold occurrences
  dsimp only
  rw [stringFromBytes_utf8]
  rfl

theorem isCounting : (app isAlphabetic toLowercase).Counts (occurrences isAlphabetic toLowercase)
    Text.utf8 decode cmp line where
  map := by
    intro kv aux words h
    obtain ⟨s, hs, h⟩ := bind_eq_ok h
    obtain rfl := Except.ok.inj h
    unfold app map emit
    dsimp only
    rw [hs, ok_bind]
    rfl
  reduce := fun _ _ _ => rfl
  output := fun _ => rfl
  decode := by
    intro kv words _ w _ n hn
    unfold decode
    dsimp only
    rw [stringFromBytes_utf8, ok_bind, getU64_putU64 hn]
    rfl
  distinguish := by
    intro a b h
    obtain ⟨-, h⟩ := Ordering.then_eq_eq.mp h
    exact utf8_injective (Std.LawfulEqOrd.eq_of_compare h)

end Wc

/-! ### Vertex degree -/

namespace VertexDegree

/-- The ends of the edges of an input. -/
def occurrences (kv : KeyValue) : Except AppError (List Nat) := do
  let s ← stringFromBytes kv.value
  let edges ← parseEdges s
  .ok (edges.flatMap fun (a, b) => [a, b])

def decode (kv : KeyValue) : Except AppError (Nat × Nat) := do
  let (vertex, _) ← getU64 kv.key
  let (degree, _) ← getU64 kv.value
  .ok (vertex, degree)

instance : Std.TransCmp cmp :=
  inferInstanceAs (Std.TransCmp (compareOn fun e : Nat × Nat => e.1))

/-- A vertex is a `u64`. -/
theorem nextVertex_lt {fields rest : List Str} {n : Nat}
    (h : nextVertex fields = .ok (n, rest)) : n < 2 ^ 64 := by
  unfold nextVertex at h
  split at h
  · exact absurd h (by simp)
  · split at h
    · rename_i hparse
      obtain ⟨rfl, -⟩ := Prod.mk.inj (Except.ok.inj h)
      exact parseU64_lt hparse
    · exact absurd h (by simp)

theorem parseLine_lt {line : Str} {edge : Nat × Nat} (h : parseLine line = .ok edge) :
    edge.1 < 2 ^ 64 ∧ edge.2 < 2 ^ 64 := by
  obtain ⟨⟨a, fields⟩, ha, h⟩ := bind_eq_ok h
  obtain ⟨⟨b, rest⟩, hb, h⟩ := bind_eq_ok h
  obtain rfl := Except.ok.inj h
  exact ⟨nextVertex_lt ha, nextVertex_lt hb⟩

theorem parseLines_lt {lines : List Str} {edges : List (Nat × Nat)}
    (h : lines.mapM parseLine = .ok edges) : ∀ e ∈ edges, e.1 < 2 ^ 64 ∧ e.2 < 2 ^ 64 := by
  induction lines generalizing edges with
  | nil =>
      cases h
      simp
  | cons line lines ih =>
      obtain ⟨edge, rest, hedge, hrest, rfl⟩ := mapM_cons_eq_ok h
      intro e he
      rcases List.mem_cons.mp he with rfl | he
      · exact parseLine_lt hedge
      · exact ih hrest e he

theorem occurrences_lt {kv : KeyValue} {vertices : List Nat} (h : occurrences kv = .ok vertices) :
    ∀ v ∈ vertices, v < 2 ^ 64 := by
  obtain ⟨s, -, h⟩ := bind_eq_ok h
  obtain ⟨edges, hedges, h⟩ := bind_eq_ok h
  obtain rfl := Except.ok.inj h
  intro v hv
  obtain ⟨e, he, hv⟩ := List.mem_flatMap.mp hv
  have hlt := parseLines_lt hedges e he
  simp only [List.mem_cons, List.not_mem_nil, or_false] at hv
  rcases hv with rfl | rfl
  · exact hlt.1
  · exact hlt.2

theorem occurrences_utf8 (key : Bytes) {s : Str} {edges : List (Nat × Nat)}
    (h : parseEdges s = .ok edges) :
    occurrences ⟨key, Text.utf8 s⟩ = .ok (edges.flatMap fun (a, b) => [a, b]) := by
  unfold occurrences
  dsimp only
  rw [stringFromBytes_utf8, ok_bind, h]
  rfl

theorem isCounting : app.Counts occurrences (putU64 []) decode cmp line where
  map := by
    intro kv aux vertices h
    obtain ⟨s, hs, h⟩ := bind_eq_ok h
    obtain ⟨edges, hedges, h⟩ := bind_eq_ok h
    obtain rfl := Except.ok.inj h
    unfold app map emit
    dsimp only
    rw [hs, ok_bind, hedges, ok_bind, List.map_flatMap]
    rfl
  reduce := fun _ _ _ => rfl
  output := fun _ => rfl
  decode := by
    intro kv vertices h v hv n hn
    unfold decode
    dsimp only
    rw [getU64_putU64 (occurrences_lt h v hv), ok_bind]
    dsimp only
    rw [getU64_putU64 hn]
    rfl
  distinguish := fun _ _ h => Nat.compare_eq_eq.mp h

end VertexDegree

/-- **The output of a job** is the same however the pairs are grouped and ordered on the way. It
lists every distinct key once, with the number of its occurrences in all of the inputs, in the order
of `process_output`. -/
theorem counting_output (isAlphabetic : Char → Bool) (toLowercase : Str → Str)
    (inputs : List KeyValue) (aux : Bytes) :
    (∀ words, occurrencesIn (Wc.occurrences isAlphabetic toLowercase) inputs = .ok words →
      (∀ e ∈ counts words, e.2 < 2 ^ 64) →
        ∃ lines, Tally Wc.cmp words lines ∧
          (Wc.app isAlphabetic toLowercase).AlwaysOutputs inputs aux (lines.flatMap Wc.line)) ∧
      ∀ vertices, occurrencesIn VertexDegree.occurrences inputs = .ok vertices →
        (∀ e ∈ counts vertices, e.2 < 2 ^ 64) →
          ∃ lines, Tally VertexDegree.cmp vertices lines ∧
            VertexDegree.app.AlwaysOutputs inputs aux (lines.flatMap VertexDegree.line) := by
  constructor
  · intro words hwords hcount
    have hc := Wc.isCounting isAlphabetic toLowercase
    exact ⟨_, tally_sortBy hc.distinguish words, hc.always hwords hcount⟩
  · intro vertices hvertices hcount
    have hc := VertexDegree.isCounting
    exact ⟨_, tally_sortBy hc.distinguish vertices, hc.always hvertices hcount⟩

/-- Two files. -/
def textFiles : List KeyValue :=
  [⟨[], Text.utf8 "Foo bar.".toList⟩, ⟨[], Text.utf8 "bar".toList⟩]

theorem textFiles_words : occurrencesIn (Wc.occurrences Char.isAlpha (List.map Char.toLower))
    textFiles = .ok ["foo".toList, "bar".toList, "bar".toList] := by
  unfold occurrencesIn textFiles
  rw [mapM_cons_ok (Wc.occurrences_utf8 _ _ _ _) (mapM_cons_ok (Wc.occurrences_utf8 _ _ _ _) rfl),
    ok_bind]
  decide +kernel

/-- A path of two edges, the vertices of which are 1, 2 and 3. -/
def graphFile : List KeyValue := [⟨[], Text.utf8 "1 2\n2 3".toList⟩]

theorem graphFile_vertices :
    occurrencesIn VertexDegree.occurrences graphFile = .ok [1, 2, 2, 3] := by
  unfold occurrencesIn graphFile
  have hedges : VertexDegree.parseEdges "1 2\n2 3".toList = .ok [(1, 2), (2, 3)] := by
    decide +kernel
  rw [mapM_cons_ok (VertexDegree.occurrences_utf8 [] hedges) rfl, ok_bind]
  rfl

/-- The words of two files in two buckets, and the vertices of a path. -/
theorem counting_output_files :
    (∃ lines emitted reduced,
      Tally Wc.cmp ["foo".toList, "bar".toList, "bar".toList] lines ∧
        (Wc.app Char.isAlpha (List.map Char.toLower)).mapAll textFiles [] = .ok emitted ∧
          (Grouping.ofBucket (emitted.map KeyValue.toPair) 2 (ihashBucket (by decide))).reduceAll
              (fun key values => Wc.reduce key values []) = .ok reduced ∧
            ∀ kva : List KeyValue, (kva.map KeyValue.toPair).Perm reduced →
              Wc.processOutput kva = .ok (lines.flatMap Wc.line)) ∧
      ∃ lines, Tally VertexDegree.cmp [1, 2, 2, 3] lines ∧
        VertexDegree.app.AlwaysOutputs graphFile [] (lines.flatMap VertexDegree.line) := by
  constructor
  · obtain ⟨lines, htally, emitted, hmap, hjobs⟩ :=
      (counting_output Char.isAlpha (List.map Char.toLower) textFiles []).1 _ textFiles_words
        (by decide +kernel)
    obtain ⟨reduced, hreduced, houtput⟩ := hjobs (Grouping.ofBucket _ 2 (ihashBucket (by decide)))
    exact ⟨lines, emitted, reduced, htally, hmap, hreduced, houtput⟩
  · exact (counting_output Char.isAlpha (List.map Char.toLower) graphFile []).2 _
      graphFile_vertices (by decide +kernel)

end OsTools.MapReduce
