import OsTools.Lib.Text
/-!
# OsTools.Http.Messages

Requests and responses of the HTTP server (`hw-http-rs`, `http.rs`), with the operations of
`std::path::Path` that it uses on paths that start with a dot.

What is written to the socket is the bytes that each function returns.

The reads of a connection are given as a list, so that a theorem about all lists is one
about all ways in which the bytes may arrive. A read of no bytes is the end of the stream,
and also what a full buffer leads to.
-/

namespace OsTools.Http

open Text

abbrev Bytes := List UInt8

/-! ### Requests -/

/-- `REQUEST_BUF_SIZE`. -/
def REQUEST_BUF_SIZE : Nat := 1024

structure Request where
  method : Str
  path : Str
  deriving DecidableEq

/-- Why there is no request. -/
inductive HttpError
  | io
  | utf8
  | invalidRequest
  deriving DecidableEq

/-- The loop of `parse_request`, behind the bytes read so far. `none` is a read that fails. -/
def readRequest : List (Option Bytes) → Bytes → Except HttpError Bytes
  | [], buf => .ok buf
  | none :: _, _ => .error .io
  | some chunk :: reads, buf =>
      let chunk := chunk.take (REQUEST_BUF_SIZE - buf.length)
      if chunk = [] then .ok buf
      else if 13 ∈ chunk then .ok (buf ++ chunk)
      else readRequest reads (buf ++ chunk)

/-- `parse_request`. -/
def parseRequest (reads : List (Option Bytes)) : Except HttpError Request :=
  match readRequest reads [] with
  | .error e => .error e
  | .ok buf =>
      match fromUtf8 buf with
      | none => .error .utf8
      | some s =>
          match splitWhitespace (trim s) with
          | method :: path :: _ => .ok ⟨method, path⟩
          | _ => .error .invalidRequest

/-! ### Responses -/

/-- `response_message`. -/
def responseMessage (statusCode : Nat) : Str :=
  match statusCode with
  | 100 => "Continue".toList
  | 200 => "OK".toList
  | 301 => "Moved Permanently".toList
  | 302 => "Found".toList
  | 304 => "Not Modified".toList
  | 400 => "Bad Request".toList
  | 401 => "Unauthorized".toList
  | 403 => "Forbidden".toList
  | 404 => "Not Found".toList
  | 405 => "Method Not Allowed".toList
  | _ => "Internal Server Error".toList

/-- `start_response`. -/
def startResponse (statusCode : Nat) : Bytes :=
  utf8 ("HTTP/1.0 ".toList ++ decimal statusCode ++ ' ' :: responseMessage statusCode) ++
    utf8 ['\r', '\n']

/-- `send_header`. -/
def sendHeader (key value : Str) : Bytes :=
  utf8 (key ++ ": ".toList ++ value) ++ utf8 ['\r', '\n']

/-- `end_headers`. -/
def endHeaders : Bytes := utf8 ['\r', '\n']

/-- `format_href`. -/
def formatHref (path filename : Str) : Str :=
  "<a href=\"/".toList ++ path ++ "\">".toList ++ filename ++ "</a><br/>".toList

/-- `format_index`. -/
def formatIndex (path : Str) : Str := path ++ "/index.html".toList

/-! ### Paths

`Path` skips slashes that follow each other and dots between slashes, other than a dot at the
front of the path. The functions here go over the path from its end. -/

/-- The path `s`, read backwards, without the slashes and dots that end it. -/
def trimEnd : Nat → Str → Str
  | 0, s => s
  | n + 1, s =>
      let comp := s.takeWhile (· ≠ '/')
      match s.dropWhile (· ≠ '/') with
      | [] => s
      | _ :: front => if comp = [] ∨ comp = ['.'] then trimEnd n front else s

def reversed (path : Str) : Str := trimEnd path.length path.reverse

/-- `Path::file_name`. -/
def fileName (path : Str) : Option Str :=
  let comp := ((reversed path).takeWhile (· ≠ '/')).reverse
  if comp = [] ∨ comp = ['.'] ∨ comp = ['.', '.'] then none else some comp

/-- `Path::parent`. -/
def parent (path : Str) : Option Str :=
  match (reversed path).dropWhile (· ≠ '/') with
  | [] => if path = [] then none else some []
  | _ :: front => some (trimEnd front.length front).reverse

/-- `file_extension`: what follows the last dot of the name, if something precedes it. -/
def fileExtension (path : Str) : Option Str :=
  (fileName path).bind fun name =>
    let after := (name.reverse.takeWhile (· ≠ '.')).reverse
    match name.reverse.dropWhile (· ≠ '.') with
    | [] => none
    | _ :: before => if before = [] then none else some after

/-- `get_mime_type`. -/
def getMimeType (path : Str) : Str :=
  let fileExt := (fileExtension path).getD "other".toList
  if fileExt = "html".toList ∨ fileExt = "htm".toList then "text/html".toList
  else if fileExt = "jpg".toList ∨ fileExt = "jpeg".toList then "image/jpeg".toList
  else if fileExt = "png".toList then "image/png".toList
  else if fileExt = "css".toList then "text/css".toList
  else if fileExt = "js".toList then "application/javascript".toList
  else if fileExt = "pdf".toList then "application/pdf".toList
  else "text/plain".toList

example : getMimeType "./a.b/c.tar.htm/.".toList = "text/html".toList := by decide

/-! ### The end of the headers -/

/-- The bytes after the first empty line. -/
def afterBlankLine : Bytes → Option Bytes
  | [] => none
  | b :: bs => if [13, 10, 13, 10] <+: b :: bs then some (bs.drop 3) else afterBlankLine bs

variable {l bs : Bytes}

/-- A line without a carriage return in it is passed over. -/
theorem afterBlankLine_append (hl : 13 ∉ l) : afterBlankLine (l ++ bs) = afterBlankLine bs := by
  induction l with
  | nil => rfl
  | cons b l ih =>
      have hb : b ≠ 13 := fun h => hl (by simp [h])
      have hl' : 13 ∉ l := fun h => hl (by simp [h])
      rw [List.cons_append, afterBlankLine, if_neg, ih hl']
      intro h
      exact hb (List.cons_prefix_cons.mp h).1.symm

/-- The line after it is not empty: the headers go on. -/
theorem afterBlankLine_line (hl : 13 ∉ l) (hbs : ∃ b t, bs = b :: t ∧ b ≠ 13) :
    afterBlankLine (l ++ utf8 ['\r', '\n'] ++ bs) = afterBlankLine bs := by
  obtain ⟨b, t, rfl, hb⟩ := hbs
  have hcrlf : utf8 ['\r', '\n'] = [13, 10] := by decide
  have hfirst : ¬ [13, 10, 13, 10] <+: 13 :: 10 :: b :: t := by
    intro h
    have h₂ := (List.cons_prefix_cons.mp (List.cons_prefix_cons.mp h).2).2
    exact hb (List.cons_prefix_cons.mp h₂).1.symm
  have hsecond : ¬ [13, 10, 13, 10] <+: 10 :: b :: t := by
    intro h
    exact absurd (List.cons_prefix_cons.mp h).1 (by decide)
  rw [List.append_assoc, afterBlankLine_append hl, hcrlf, List.cons_append, List.cons_append,
    List.nil_append, afterBlankLine, if_neg hfirst, afterBlankLine, if_neg hsecond]

/-- An empty line ends them. -/
theorem afterBlankLine_end (hl : 13 ∉ l) :
    afterBlankLine (l ++ utf8 ['\r', '\n'] ++ endHeaders ++ bs) = some bs := by
  have hend : utf8 ['\r', '\n'] ++ endHeaders = [13, 10, 13, 10] := by decide
  rw [List.append_assoc l, hend, List.append_assoc, afterBlankLine_append hl]
  simp [afterBlankLine]

/-! ### Characters of the headers -/

theorem not_mem_utf8_digits {s : Str} (hs : ∀ c ∈ s, c.isDigit = true) : 13 ∉ utf8 s := by
  intro h
  obtain ⟨c, hc, hmem⟩ := List.mem_flatMap.mp h
  have hdigit := hs c hc
  simp only [Char.isDigit, Bool.and_eq_true, decide_eq_true_eq] at hdigit
  have hlow : 48 ≤ c.val.toNat := UInt32.le_iff_toNat_le.mp hdigit.1
  have hhigh : c.val.toNat ≤ 57 := UInt32.le_iff_toNat_le.mp hdigit.2
  have hsize : c.utf8Size = 1 := by
    have hle : c.val ≤ 0x7f := UInt32.le_iff_toNat_le.mpr (Nat.le_trans hhigh (by decide))
    simp [Char.utf8Size, hle]
  rw [String.utf8EncodeChar_eq_singleton hsize, List.mem_singleton] at hmem
  have hval : 13 = c.val.toNat % 256 := congrArg UInt8.toNat hmem
  omega

theorem not_mem_utf8_decimal (n : Nat) : 13 ∉ utf8 (decimal n) :=
  not_mem_utf8_digits fun _ hc => Nat.isDigit_of_mem_toDigits (by decide) (by decide) hc

theorem not_mem_utf8_mimeType (path : Str) : 13 ∉ utf8 (getMimeType path) := by
  have hmime : getMimeType path ∈ ["text/html".toList, "image/jpeg".toList, "image/png".toList,
      "text/css".toList, "application/javascript".toList, "application/pdf".toList,
      "text/plain".toList] := by
    unfold getMimeType
    dsimp only
    repeat' split
    all_goals simp
  have hall : ∀ s ∈ ["text/html".toList, "image/jpeg".toList, "image/png".toList,
      "text/css".toList, "application/javascript".toList, "application/pdf".toList,
      "text/plain".toList], 13 ∉ utf8 s := by decide
  exact hall _ hmime

end OsTools.Http
