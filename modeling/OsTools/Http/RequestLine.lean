import OsTools.Http.Messages
/-!
# OsTools.Http.RequestLine

`parse_request` on a stream that begins with a request line. It stops reading behind the first
chunk with a carriage return, and decodes all the bytes that it has by then.

Which of the bytes behind the line these are is up to the chunks. So the request is the one in the
line, whatever the chunks, only where all of them are ASCII: `parse_request_split_iff`.

## Proof shape

What has been read when the loop stops is a prefix of the stream that ends somewhere behind
the request line, or at the end of the buffer; every such prefix is possible, by a chunk of
its length. So the theorem is about prefixes. With ASCII all of them are texts, and the
first two words are the same in each. With one byte that is not ASCII, the prefix that ends
right behind it is no text (`fromUtf8_cut`), and the one that ends at the line is.
-/

namespace OsTools.Http

open Text

/-- ASCII without white space, and not empty. -/
structure IsWord (w : Bytes) : Prop where
  nonempty : w ≠ []
  low : ∀ b ∈ w, b < 128
  word : ∀ c ∈ ascii w, isWhitespace c = false

/-- A request line, which there is room for in the buffer. -/
structure RequestLine where
  method : Bytes
  path : Bytes
  version : Bytes
  isMethod : IsWord method
  isPath : IsWord path
  isVersion : ∀ b ∈ version, b < 128 ∧ b ≠ 13
  fits : (method ++ 32 :: (path ++ 32 :: version) ++ [13, 10]).length ≤ REQUEST_BUF_SIZE

namespace RequestLine

/-- The line up to the carriage return. -/
def text (line : RequestLine) : Bytes := line.method ++ 32 :: (line.path ++ 32 :: line.version)

def bytes (line : RequestLine) : Bytes := line.text ++ [13, 10]

/-- What the line asks for. -/
def request (line : RequestLine) : Request := ⟨ascii line.method, ascii line.path⟩

end RequestLine

/-- The chunks that a stream is read in. An empty one would be its end. -/
structure Splits (stream : Bytes) (reads : List Bytes) : Prop where
  nonempty : [] ∉ reads
  flatten : reads.flatten = stream

variable {line : RequestLine} {text rest stream buf w v tail : Bytes} {reads : List Bytes} {n : Nat}

/-! ### What is read -/

theorem mem_take_iff (htext : 13 ∉ text) : 13 ∈ (text ++ 13 :: rest).take n ↔ text.length < n := by
  rw [List.take_append, List.mem_append]
  constructor
  · rintro (h | h)
    · exact absurd (List.mem_of_mem_take h) htext
    · by_contra hshort
      rw [Nat.sub_eq_zero_of_le (by omega), List.take_zero] at h
      exact absurd h List.not_mem_nil
  · intro h
    obtain ⟨k, hk⟩ : ∃ k, n - text.length = k + 1 := ⟨n - text.length - 1, by omega⟩
    rw [hk, List.take_succ_cons]
    exact Or.inr List.mem_cons_self

/-- The bytes that have been read are the first ones of the stream. -/
theorem take_read (h : buf ++ tail = text ++ 13 :: rest) :
    (text ++ 13 :: rest).take buf.length = buf := by
  rw [← h, List.take_left]

/-- The loop stops behind the carriage return, somewhere before the end of the buffer. The induction
is on the chunks; what has been read so far is without a carriage return. -/
theorem readRequest_spec (htext : 13 ∉ text) (hfits : text.length < REQUEST_BUF_SIZE)
    (hreads : [] ∉ reads) (hstream : buf ++ reads.flatten = text ++ 13 :: rest) (hbuf : 13 ∉ buf) :
    ∃ n, text.length < n ∧ n ≤ REQUEST_BUF_SIZE ∧
      readRequest (reads.map some) buf = .ok ((text ++ 13 :: rest).take n) := by
  have hlength : buf.length ≤ text.length := by
    rw [← take_read hstream, mem_take_iff htext] at hbuf
    omega
  induction reads generalizing buf with
  | nil =>
      have hall := congrArg List.length hstream
      simp only [List.flatten_nil, List.append_nil, List.length_append, List.length_cons] at hall
      omega
  | cons chunk reads ih =>
      have hchunk : chunk ≠ [] := fun h => hreads (by simp [h])
      have hreads' : [] ∉ reads := fun h => hreads (List.mem_cons_of_mem _ h)
      generalize hc : chunk.take (REQUEST_BUF_SIZE - buf.length) = c
      have hsplit : chunk = c ++ chunk.drop (REQUEST_BUF_SIZE - buf.length) := by
        rw [← hc, List.take_append_drop]
      have hread : (buf ++ c) ++ (chunk.drop (REQUEST_BUF_SIZE - buf.length) ++ reads.flatten) =
          text ++ 13 :: rest := by
        rw [← hstream, List.flatten_cons, List.append_assoc, ← List.append_assoc c, ← hsplit]
      have htake := take_read hread
      have hcount : c.length = min (REQUEST_BUF_SIZE - buf.length) chunk.length := by
        rw [← hc, List.length_take]
      have hpos := List.length_pos_iff.mpr hchunk
      have hne : c ≠ [] := by
        intro h
        rw [h, List.length_nil] at hcount
        omega
      rw [List.length_append] at htake
      unfold readRequest
      rw [List.map_cons]
      dsimp only
      rw [hc, if_neg hne]
      by_cases hcr : 13 ∈ c
      · rw [if_pos hcr]
        refine ⟨buf.length + c.length, ?_, by omega, by rw [htake]⟩
        rw [← mem_take_iff htext, htake]
        exact List.mem_append_right _ hcr
      · -- The buffer is not full yet, so that this is the whole chunk.
        rw [if_neg hcr]
        have hbuf' : 13 ∉ buf ++ c := by
          rw [List.mem_append]
          exact fun h => h.elim hbuf hcr
        have hlength' : (buf ++ c).length ≤ text.length := by
          rw [← take_read hread, mem_take_iff htext] at hbuf'
          omega
        rw [List.length_append] at hlength'
        have hwhole : c = chunk := by
          rw [← hc]
          exact List.take_of_length_le (by omega)
        subst hwhole
        exact ih hreads' (by rw [List.append_assoc, ← List.flatten_cons, hstream]) hbuf'
          (by rw [List.length_append]; exact hlength')

/-! ### What is decoded -/

/-- The words of a text that begins with two of them. -/
theorem splitWhitespace_line {s t : Str} (hs : s ≠ []) (ht : t ≠ [])
    (hsw : ∀ c ∈ s, isWhitespace c = false) (htw : ∀ c ∈ t, isWhitespace c = false) (more : Str) :
    ∃ words, splitWhitespace (trim (s ++ ' ' :: (t ++ ' ' :: more))) = s :: t :: words := by
  have hspace : isWhitespace ' ' = true := by decide
  have hfront : ∀ c ∈ (s ++ ' ' :: t).head?, isWhitespace c = false := by
    intro c hc
    rw [List.head?_append_of_ne_nil _ hs] at hc
    exact hsw c (List.mem_of_head? hc)
  have hback : ∀ c ∈ (s ++ ' ' :: t).getLast?, isWhitespace c = false := by
    intro c hc
    have hshape : s ++ ' ' :: t = (s ++ [' ']) ++ t := by simp
    rw [hshape, List.getLast?_append_of_ne_nil _ ht] at hc
    exact htw c (List.mem_of_getLast? hc)
  obtain ⟨kept, dropped, hmore, htrim⟩ := trim_append (by simp) hfront hback (' ' :: more)
  have hshape : s ++ ' ' :: (t ++ ' ' :: more) = (s ++ ' ' :: t) ++ ' ' :: more := by simp
  unfold splitWhitespace
  rw [hshape, htrim, List.append_assoc, List.cons_append,
    runs_run (fun c hc => by simp [hsw c hc]) hs (by simp [hspace])]
  -- What is left of the text behind the second word begins with the space there, if anything is.
  cases kept with
  | nil =>
      rw [List.append_nil, runs_all (fun c hc => by simp [htw c hc]) ht]
      exact ⟨[], rfl⟩
  | cons c kept =>
      obtain rfl : ' ' = c := by
        rw [List.cons_append] at hmore
        exact (List.cons.inj hmore).1
      rw [runs_run (fun c hc => by simp [htw c hc]) ht (by simp [hspace])]
      exact ⟨_, rfl⟩

/-- ASCII that begins with the line up to its carriage return is the request of the line. -/
theorem parse_ascii (hn : line.text.length < n)
    (hlow : ∀ b ∈ (line.text ++ 13 :: rest).take n, b < 128) (reads : List (Option Bytes))
    (hread : readRequest reads [] = .ok ((line.text ++ 13 :: rest).take n)) :
    parseRequest reads = .ok line.request := by
  have hmethod : ascii line.method ≠ [] := by simpa [ascii] using line.isMethod.nonempty
  have hpath : ascii line.path ≠ [] := by simpa [ascii] using line.isPath.nonempty
  obtain ⟨more, htake⟩ : ∃ more, (line.text ++ 13 :: rest).take n = line.text ++ more := by
    rw [List.take_append, List.take_of_length_le (by omega)]
    exact ⟨_, rfl⟩
  have htext : ascii (line.text ++ more) =
      ascii line.method ++ ' ' :: (ascii line.path ++ ' ' :: (ascii line.version ++ ascii more)) := by
    simp [RequestLine.text, ascii]
  obtain ⟨words, hwords⟩ := splitWhitespace_line hmethod hpath line.isMethod.word
    line.isPath.word (ascii line.version ++ ascii more)
  rw [htake] at hread hlow
  unfold parseRequest
  rw [hread]
  dsimp only
  rw [fromUtf8_ascii hlow, htext]
  dsimp only
  rw [hwords]
  rfl

/-- The text of a request line is ASCII without a carriage return, and shorter than the
buffer. -/
theorem RequestLine.text_spec (line : RequestLine) :
    13 ∉ line.text ∧ line.text.length < REQUEST_BUF_SIZE ∧ ∀ b ∈ line.text, b < 128 := by
  have hword : ∀ w, IsWord w → 13 ∉ w := by
    intro w hw h
    have hcr := hw.word (Char.ofNat 13) (List.mem_map.mpr ⟨13, h, rfl⟩)
    simp [isWhitespace] at hcr
  have hmem : ∀ b ∈ line.text, b ∈ line.method ∨ b = 32 ∨ b ∈ line.path ∨ b ∈ line.version := by
    intro b hb
    simp only [RequestLine.text, List.mem_append, List.mem_cons] at hb
    grind
  refine ⟨fun h => ?_, ?_, fun b hb => ?_⟩
  · rcases hmem 13 h with h | h | h | h
    · exact hword _ line.isMethod h
    · exact absurd h (by decide)
    · exact hword _ line.isPath h
    · exact (line.isVersion 13 h).2 rfl
  · have := line.fits
    rw [List.length_append] at this
    exact Nat.lt_of_lt_of_le (Nat.lt_add_of_pos_right (by decide)) this
  · rcases hmem b hb with h | rfl | h | h
    · exact line.isMethod.low b h
    · decide
    · exact line.isPath.low b h
    · exact (line.isVersion b h).1

/-- The first byte that is not ASCII. -/
theorem exists_first_high {l : Bytes} (h : ¬ ∀ b ∈ l, b < 128) :
    ∃ s b t, l = s ++ b :: t ∧ (∀ x ∈ s, x < 128) ∧ 128 ≤ b := by
  induction l with
  | nil => exact absurd (fun b hb => absurd hb List.not_mem_nil) h
  | cons a l ih =>
      by_cases ha : a < 128
      · have hrest : ¬ ∀ b ∈ l, b < 128 := by
          intro hall
          refine h fun b hb => ?_
          rcases List.mem_cons.mp hb with rfl | hb
          · exact ha
          · exact hall b hb
        obtain ⟨s, b, t, rfl, hs, hb⟩ := ih hrest
        refine ⟨a :: s, b, t, rfl, fun x hx => ?_, hb⟩
        rcases List.mem_cons.mp hx with rfl | hx
        · exact ha
        · exact hs x hx
      · exact ⟨[], a, l, rfl, fun x hx => absurd hx List.not_mem_nil, UInt8.not_lt.mp ha⟩

/-! ### Every way of splitting the stream -/

/-- The request of the line is what comes of the stream, whatever the two ways of splitting it. -/
def SameRequest (line : RequestLine) (rest : Bytes) : Prop :=
  ∀ reads reads', Splits (line.bytes ++ rest) reads → Splits (line.bytes ++ rest) reads' →
    parseRequest (reads.map some) = .ok line.request ∧
      parseRequest (reads'.map some) = .ok line.request

theorem RequestLine.bytes_append (line : RequestLine) (rest : Bytes) :
    line.bytes ++ rest = line.text ++ 13 :: 10 :: rest := by
  unfold RequestLine.bytes
  rw [List.append_assoc]
  rfl

/-- A stream may come in such a way that these bytes are the first chunk. -/
theorem exists_split {first : Bytes} (hfirst : first ≠ []) (more : Bytes) :
    ∃ reads, Splits (first ++ more) (first :: reads) := by
  by_cases hmore : more = []
  · exact ⟨[], by simp [Ne.symm hfirst], by simp [hmore]⟩
  · exact ⟨[more], by simp [Ne.symm hfirst, Ne.symm hmore], by simp⟩

theorem sameRequest_of_ascii
    (hlow : ∀ b ∈ (line.bytes ++ rest).take REQUEST_BUF_SIZE, b < 128) : SameRequest line rest := by
  have hall : ∀ reads, Splits (line.bytes ++ rest) reads →
      parseRequest (reads.map some) = .ok line.request := by
    intro reads hreads
    obtain ⟨hcr, hfits, -⟩ := line.text_spec
    have hstream : [] ++ reads.flatten = line.text ++ 13 :: 10 :: rest := by
      rw [List.nil_append, hreads.flatten, line.bytes_append]
    obtain ⟨n, hn, hle, hread⟩ := readRequest_spec hcr hfits hreads.nonempty hstream (by simp)
    refine parse_ascii hn (fun b hb => hlow b ?_) _ hread
    rw [line.bytes_append]
    rw [← Nat.min_eq_left hle, ← List.take_take] at hb
    exact List.mem_of_mem_take hb
  exact fun reads reads' hreads hreads' => ⟨hall reads hreads, hall reads' hreads'⟩

/-- The stream is refused where the first chunk ends with its first byte that is not ASCII.
That byte is behind the request line, so that the loop stops there, and a text of UTF-8 does
not end with the first byte of a longer character. -/
theorem not_sameRequest (hhigh : ¬ ∀ b ∈ (line.bytes ++ rest).take REQUEST_BUF_SIZE, b < 128) :
    ¬ SameRequest line rest := by
  intro hsame
  obtain ⟨hcr, -, htext⟩ := line.text_spec
  obtain ⟨s, b, t, htake, hs, hb⟩ := exists_first_high hhigh
  have hstream : line.bytes ++ rest =
      (s ++ [b]) ++ (t ++ (line.bytes ++ rest).drop REQUEST_BUF_SIZE) := by
    calc line.bytes ++ rest
      _ = (line.bytes ++ rest).take REQUEST_BUF_SIZE ++
            (line.bytes ++ rest).drop REQUEST_BUF_SIZE := (List.take_append_drop _ _).symm
      _ = _ := by rw [htake]; simp
  have htaken : (line.text ++ 13 :: 10 :: rest).take (s ++ [b]).length = s ++ [b] :=
    take_read (hstream.symm.trans (line.bytes_append rest))
  have hlength : (s ++ [b]).length ≤ REQUEST_BUF_SIZE := by
    have := congrArg List.length htake
    simp only [List.length_take, List.length_append, List.length_cons, List.length_nil] at this ⊢
    omega
  -- The carriage return is before the byte, as the line is ASCII.
  have hlong : line.text.length < (s ++ [b]).length := by
    by_contra hshort
    rw [List.take_append_of_le_length (by omega)] at htaken
    have hmem : b ∈ line.text.take (s ++ [b]).length := by rw [htaken]; simp
    have hlow := htext b (List.mem_of_mem_take hmem)
    rw [UInt8.lt_iff_toNat_lt] at hlow
    rw [UInt8.le_iff_toNat_le] at hb
    omega
  have hmem : 13 ∈ s ++ [b] := by
    rw [← htaken, mem_take_iff hcr]
    exact hlong
  have hfirst : s ++ [b] ≠ [] := by simp
  obtain ⟨reads, hreads⟩ := exists_split hfirst (t ++ (line.bytes ++ rest).drop REQUEST_BUF_SIZE)
  rw [← hstream] at hreads
  have hread : readRequest (((s ++ [b]) :: reads).map some) [] = .ok (s ++ [b]) := by
    unfold readRequest
    rw [List.map_cons]
    dsimp only
    rw [List.take_of_length_le (by simpa using hlength), if_neg (by simp), if_pos hmem,
      List.nil_append]
  have hparse := (hsame _ _ hreads hreads).1
  unfold parseRequest at hparse
  rw [hread] at hparse
  dsimp only at hparse
  rw [fromUtf8_cut hs hb] at hparse
  cases hparse

/-- **The request of a stream** is the one of the request line that it begins with, for every two
ways of splitting the stream into chunks, if and only if there is nothing but ASCII in the first
1024 bytes of it. -/
theorem parse_request_split_iff (line : RequestLine) (rest : Bytes) :
    SameRequest line rest ↔ ∀ b ∈ (line.bytes ++ rest).take REQUEST_BUF_SIZE, b < 128 :=
  ⟨fun h => by_contra fun hhigh => not_sameRequest hhigh h, sameRequest_of_ascii⟩

/-- `GET /a HTTP/1.0`. -/
def lineA : RequestLine where
  method := [71, 69, 84]
  path := [47, 97]
  version := [72, 84, 84, 80, 47, 49, 46, 48]
  isMethod := ⟨by simp, by simp, by simp [ascii, isWhitespace]⟩
  isPath := ⟨by simp, by simp, by simp [ascii, isWhitespace]⟩
  isVersion := by simp
  fits := by decide

/-- A byte 255 behind the line is read with it, or is not. -/
theorem lineA_not_sameRequest : ¬ ∀ line rest, SameRequest line rest := by
  intro hall
  have hparse := (hall lineA [255] [lineA.bytes, [255]] [lineA.bytes ++ [255]]
    ⟨by decide, by decide⟩ ⟨by decide, by decide⟩)
  exact absurd hparse.2 (by decide)

end OsTools.Http
