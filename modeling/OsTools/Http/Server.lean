import Mathlib.Data.List.Basic
import OsTools.Http.Messages
/-!
# OsTools.Http.Server

A connection of the HTTP server (`hw-http-rs`, `server.rs`): `handle_socket` answers a request
with a file, with the `index.html` of a directory, or with a list of links.

A file is copied through a buffer that is written as a whole after each read, and once more at
the end. `no_file_delivered`: what follows the headers is never the file.

The file system is a parameter. A file is the sequence of the chunks that the reads of it
return, so that every way of splitting it is covered. Writes to the socket succeed.

The file system is a parameter, as what the operating system answers for a path. A handler
is a function of the request and of these answers, so that what it discloses can be stated
by changing them.
-/

namespace OsTools.Http

open Text

/-- The size of `buffer`. -/
def bufferSize : Nat := 1024

/-- What a read returns before the end of a file. -/
structure Chunk where
  bytes : Bytes
  nonempty : bytes ≠ []
  fits : bytes.length ≤ bufferSize

/-- The contents of a file that is read in these chunks. -/
def contents (chunks : List Chunk) : Bytes := chunks.flatMap Chunk.bytes

structure Metadata where
  isDir : Bool
  len : Nat
  deriving DecidableEq

/-- What a connection finds: the reads of the socket, and the file system. -/
structure Env where
  socket : List (Option Bytes)
  metadata : Str → Option Metadata
  file : Str → Option (List Chunk)
  /-- The names in a directory. -/
  readDir : Str → Option (List Str)

/-- The unwraps that may fail. -/
inductive Panic
  | readDir
  | parent
  deriving DecidableEq

/-! ### The copy loop -/

/-- `read (&mut buffer)`: the chunk is put at the front. -/
def fill (buffer : Bytes) (chunk : Chunk) : Bytes := chunk.bytes ++ buffer.drop chunk.bytes.length

/-- The `while` loop: what it writes, and the buffer that it leaves. -/
def copyLoop (buffer : Bytes) : List Chunk → Bytes × Bytes
  | [] => ([], buffer)
  | chunk :: chunks =>
      let buffer := fill buffer chunk
      let (out, last) := copyLoop buffer chunks
      (buffer ++ out, last)

/-- The loop, with the `write_all` that follows it. -/
def copyFile (buffer : Bytes) (chunks : List Chunk) : Bytes :=
  let (out, last) := copyLoop buffer chunks
  out ++ last

/-! ### `handle_socket` -/

/-- `[0; 1024]`. -/
def zeroBuffer : Bytes := List.replicate bufferSize 0

def notFound : Bytes := startResponse 404 ++ endHeaders

/-- The headers of a file of length `len`. -/
def fileHeaders (mime : Str) (len : Nat) : Bytes :=
  startResponse 200 ++ sendHeader "Content-Type".toList mime ++
    sendHeader "Content-Length".toList (decimal len) ++ endHeaders

/-- The answer with the file at `path`. -/
def serveFile (env : Env) (path mime : Str) (len : Nat) : Bytes :=
  match env.file path with
  | none => notFound
  | some chunks => fileHeaders mime len ++ copyFile zeroBuffer chunks

/-- The links to what is in the directory, and to its parent. -/
def listDirectory (env : Env) (path : Str) : Except Panic Bytes :=
  match env.readDir path with
  | none => .error .readDir
  | some names =>
      let links := names.flatMap fun es => utf8 (formatHref (path ++ '/' :: es) es)
      let parentPath := (parent path).getD ['/']
      .ok (startResponse 200 ++ sendHeader "Content-Type".toList "text/html".toList ++ endHeaders ++
        links ++ utf8 (formatHref parentPath []))

/-- `handle_socket`: the bytes written to the socket. -/
def handleSocket (env : Env) : Except Panic Bytes :=
  match parseRequest env.socket with
  -- the connection is closed without an answer
  | .error _ => .ok []
  | .ok r =>
      let path := '.' :: r.path
      match env.metadata path with
      | none => .ok notFound
      | some info =>
          if info.isDir = false then .ok (serveFile env path (getMimeType path) info.len)
          else
            -- a directory: its `index.html`, or a listing if there is none
            let indexpath := formatIndex path
            match env.metadata indexpath with
            | some m => .ok (serveFile env indexpath "text/html".toList m.len)
            | none => listDirectory env path

/-! ### What is written -/

variable {buffer : Bytes} {chunk : Chunk} {chunks : List Chunk} {env : Env} {mime : Str}

theorem length_fill (hb : buffer.length = bufferSize) :
    (fill buffer chunk).length = bufferSize := by
  have := chunk.fits
  simp [fill, hb]
  omega

/-- The buffer is written once for each chunk. -/
theorem copyLoop_spec (hb : buffer.length = bufferSize) :
    (copyLoop buffer chunks).1.length = bufferSize * chunks.length ∧
      (copyLoop buffer chunks).2.length = bufferSize := by
  induction chunks generalizing buffer with
  | nil => exact ⟨rfl, hb⟩
  | cons chunk chunks ih =>
      have hfill := @length_fill buffer chunk hb
      obtain ⟨hout, hlast⟩ := ih hfill
      refine ⟨?_, hlast⟩
      simp only [copyLoop, List.length_append, List.length_cons, hfill, hout, Nat.mul_succ]
      omega

theorem length_copyFile (hb : buffer.length = bufferSize) :
    (copyFile buffer chunks).length = bufferSize * (chunks.length + 1) := by
  obtain ⟨hout, hlast⟩ := @copyLoop_spec buffer chunks hb
  simp [copyFile, hout, hlast, Nat.mul_succ]

theorem length_contents_le (chunks : List Chunk) :
    (contents chunks).length ≤ bufferSize * chunks.length := by
  induction chunks with
  | nil => simp [contents]
  | cons chunk chunks ih =>
      have := chunk.fits
      simp only [contents, List.flatMap_cons, List.length_append, List.length_cons,
        Nat.mul_succ] at ih ⊢
      omega

/-- More is written than the file holds. -/
theorem length_contents_lt (hb : buffer.length = bufferSize) :
    (contents chunks).length < (copyFile buffer chunks).length := by
  have := length_contents_le chunks
  rw [length_copyFile hb, Nat.mul_succ]
  unfold bufferSize at *
  omega

/-- The headers end where the file starts. -/
theorem afterBlankLine_fileHeaders (hmime : 13 ∉ utf8 mime) (len : Nat) (body : Bytes) :
    afterBlankLine (fileHeaders mime len ++ body) = some body := by
  have hstatus : 13 ∉ utf8 ("HTTP/1.0 ".toList ++ decimal 200 ++ ' ' :: responseMessage 200) := by
    decide
  have htype : 13 ∉ utf8 ("Content-Type".toList ++ ": ".toList ++ mime) := by
    rw [utf8_append, List.mem_append]
    rintro (h | h)
    · exact absurd h (by decide)
    · exact hmime h
  have hlength : 13 ∉ utf8 ("Content-Length".toList ++ ": ".toList ++ decimal len) := by
    rw [utf8_append, List.mem_append]
    rintro (h | h)
    · exact absurd h (by decide)
    · exact not_mem_utf8_decimal len h
  calc afterBlankLine (fileHeaders mime len ++ body)
    _ = afterBlankLine (sendHeader "Content-Type".toList mime ++
          (sendHeader "Content-Length".toList (decimal len) ++ endHeaders ++ body)) := by
        have hassoc : fileHeaders mime len ++ body = startResponse 200 ++
            (sendHeader "Content-Type".toList mime ++
              (sendHeader "Content-Length".toList (decimal len) ++ endHeaders ++ body)) := by
          simp only [fileHeaders, List.append_assoc]
        rw [hassoc]
        exact afterBlankLine_line hstatus ⟨67, _, rfl, by decide⟩
    _ = afterBlankLine (sendHeader "Content-Length".toList (decimal len) ++ endHeaders ++ body) :=
        afterBlankLine_line htype ⟨67, _, rfl, by decide⟩
    _ = some body := afterBlankLine_end hlength

/-- The connection asks for a regular file, or for a directory whose `index.html` is one, and
the file is read in these chunks. -/
def Requested (env : Env) (chunks : List Chunk) : Prop :=
  ∃ request, parseRequest env.socket = .ok request ∧
    let path := '.' :: request.path
    let size := (contents chunks).length
    (env.metadata path = some ⟨false, size⟩ ∧ env.file path = some chunks) ∨
    (∃ len, env.metadata path = some ⟨true, len⟩) ∧
      env.metadata (formatIndex path) = some ⟨false, size⟩ ∧
      env.file (formatIndex path) = some chunks

/-- The file is what follows the headers. -/
def Delivered (env : Env) (file : Bytes) : Prop :=
  ∃ out, handleSocket env = .ok out ∧ afterBlankLine out = some file

/-- The answer to a request for a file. -/
theorem handleSocket_requested (h : Requested env chunks) : ∃ mime, 13 ∉ utf8 mime ∧
    handleSocket env =
      .ok (fileHeaders mime (contents chunks).length ++ copyFile zeroBuffer chunks) := by
  obtain ⟨request, hrequest, ⟨hmeta, hfile⟩ | ⟨⟨len, hmeta⟩, hindex, hfile⟩⟩ := h
  · refine ⟨getMimeType ('.' :: request.path), not_mem_utf8_mimeType _, ?_⟩
    simp [handleSocket, hrequest, hmeta, serveFile, hfile]
  · refine ⟨"text/html".toList, by decide, ?_⟩
    simp [handleSocket, hrequest, hmeta, hindex, serveFile, hfile]

theorem not_delivered (h : Requested env chunks) : ¬ Delivered env (contents chunks) := by
  rintro ⟨out, hrun, hafter⟩
  obtain ⟨mime, hmime, hout⟩ := handleSocket_requested h
  obtain rfl := Except.ok.inj (hout.symm.trans hrun)
  rw [afterBlankLine_fileHeaders hmime] at hafter
  have hlonger := @length_contents_lt zeroBuffer chunks List.length_replicate
  rw [Option.some.inj hafter] at hlonger
  exact Nat.lt_irrefl _ hlonger

/-- **No file is delivered.** Whatever the file and however it is read, the body is the buffer
as often as there are reads and once more; it is longer than the file, whose length the headers
announce. -/
theorem no_file_delivered (h : Requested env chunks) :
    ¬ Delivered env (contents chunks) ∧
    ∃ mime body, handleSocket env = .ok (fileHeaders mime (contents chunks).length ++ body) ∧
      afterBlankLine (fileHeaders mime (contents chunks).length ++ body) = some body ∧
      body.length = bufferSize * (chunks.length + 1) ∧
      (contents chunks).length < body.length := by
  have hzero : zeroBuffer.length = bufferSize := List.length_replicate
  obtain ⟨mime, hmime, hout⟩ := handleSocket_requested h
  exact ⟨not_delivered h, mime, _, hout, afterBlankLine_fileHeaders hmime _ _,
    length_copyFile hzero, length_contents_lt hzero⟩

/-- A request for `/a`, a file of the one byte `x`. -/
def requestA : Env where
  socket := [some (utf8 "GET /a HTTP/1.0\r\n\r\n".toList)]
  metadata path := if path = "./a".toList then some ⟨false, 1⟩ else none
  file path := if path = "./a".toList then some [⟨[120], by decide, by decide⟩] else none
  readDir _ := none

theorem requested_requestA : Requested requestA [⟨[120], by decide, by decide⟩] :=
  ⟨⟨"GET".toList, "/a".toList⟩, by decide, Or.inl ⟨by decide, rfl⟩⟩

theorem no_file_delivered_requestA : ¬ Delivered requestA [120] :=
  (no_file_delivered requested_requestA).1

theorem requestA_not_delivered :
    ¬ ∀ env chunks, Requested env chunks → Delivered env (contents chunks) := by
  intro hall
  exact not_delivered requested_requestA (hall _ _ requested_requestA)

end OsTools.Http
