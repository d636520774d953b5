import OsTools.Http.Server
import OsTools.Lib.RelativePath
/-!
# OsTools.Http.Confinement

Which files a connection tells of (`handle_socket` of `server.rs`). The server changes its current
directory to the one that it serves, and puts a dot before the path of a request.

The dot becomes a part of the first component of that path. So a path that is to stay inside may
not have two dots where it has not gone down before, and may not begin with a dot that is a
component of its own: `disclosure_inside_iff`.

## Proof shape

Two things are compared: where the path that the server builds leads, component by component
(`OsTools.Lib.RelativePath`), and what the answer depends on. That an answer to a confined
path tells of nothing outside is a congruence: the same inside gives the same answer
(`handleSocket_same`). The other direction needs, for every path that leads out, two file
systems that are the same inside and are answered otherwise: one where everything outside is
an empty file and one where there is nothing.
-/

namespace OsTools.Http

open Text RelativePath

/-- The path of a request does not lead out of the served directory: its first component is not a
dot, and behind that no two dots come before there have been more names. A first component that is
not empty is a name, as there is a dot before it. -/
def StaysInside (path : Str) : Prop :=
  (components path).head? ≠ some ['.'] ∧
    Balanced (if (components path).head? = some [] then 0 else 1) (components path).tail

/-- What there is inside the served directory is the same. -/
structure SameInside (env env' : Env) : Prop where
  metadata : ∀ path, Confined path → env'.metadata path = env.metadata path
  file : ∀ path, Confined path → env'.file path = env.file path
  readDir : ∀ path, Confined path → env'.readDir path = env.readDir path

/-- The path that is built for the request does not lead out of the served directory. -/
def BuildsInside (socket : List (Option Bytes)) : Prop :=
  ∀ r, parseRequest socket = .ok r → Confined ('.' :: r.path)

/-- The answer tells nothing of the metadata, the contents and the lists of what is outside: it is
the same wherever all that is inside is. -/
def DisclosesInside (socket : List (Option Bytes)) : Prop :=
  ∀ env env', env.socket = socket → env'.socket = socket → SameInside env env' →
    handleSocket env = handleSocket env'

variable {path : Str} {env env' : Env} {socket : List (Option Bytes)} {mime : Str} {len : Nat}

/-! ### The path that is built -/

theorem components_dot (path : Str) :
    ∃ first cs, components path = first :: cs ∧ components ('.' :: path) = ('.' :: first) :: cs := by
  have hsplit : components ('.' :: path) = (components path).modifyHead (List.cons '.') := by
    unfold components
    rw [List.splitOnP_cons_eq_if_modifyHead, if_neg (by decide)]
  cases hcs : components path with
  | nil => exact absurd hcs (List.splitOnP_ne_nil _ _)
  | cons first cs => exact ⟨first, cs, rfl, by rw [hsplit, hcs]; rfl⟩

/-- The dot before the path makes two dots of one, a dot of nothing, and a name of the rest. -/
theorem confined_dot_iff : Confined ('.' :: path) ↔ StaysInside path := by
  obtain ⟨first, cs, hpath, hdot⟩ := components_dot path
  have hup : isUp ('.' :: first) = true ↔ first = ['.'] := by simp [isUp]
  have hname : isName ('.' :: first) = true ↔ first ≠ [] ∧ first ≠ ['.'] := by simp [isName]
  unfold Confined StaysInside
  rw [hdot, hpath, resolve_isSome_iff, List.length_nil, balanced_cons, List.head?_cons,
    List.tail_cons]
  by_cases hone : first = ['.']
  · rw [if_pos (hup.mpr hone)]
    simp [hone]
  · rw [if_neg (fun h => hone (hup.mp h))]
    by_cases hempty : first = []
    · rw [if_neg (fun h => (hname.mp h).1 hempty)]
      simp [hempty]
    · rw [if_pos (hname.mpr ⟨hempty, hone⟩)]
      simp [hempty, hone]

/-- The `index.html` of a directory is as far inside as the directory. -/
theorem confined_formatIndex (path : Str) : Confined (formatIndex path) ↔ Confined path :=
  @confined_append path "index.html".toList (by decide) (by decide)

/-! ### The answer -/

theorem serveFile_same (h : SameInside env env') (hpath : Confined path) :
    serveFile env' path mime len = serveFile env path mime len := by
  unfold serveFile
  rw [h.file path hpath]

/-- All four paths that the file system is asked for are inside if the first one is. -/
theorem handleSocket_same (h : SameInside env env') (hsocket : env'.socket = env.socket)
    (hinside : BuildsInside env.socket) :
    handleSocket env' = handleSocket env := by
  unfold handleSocket
  rw [hsocket]
  cases hparse : parseRequest env.socket with
  | error e => rfl
  | ok r =>
      have hpath := hinside r hparse
      have hindex := (confined_formatIndex _).mpr hpath
      dsimp only
      rw [h.metadata _ hpath, h.metadata _ hindex]
      unfold listDirectory
      simp only [serveFile_same h hpath, serveFile_same h hindex, h.readDir _ hpath]

/-- A file that is there is answered otherwise than one that is not. -/
theorem fileHeaders_ne_notFound (mime : Str) (len : Nat) (body : Bytes) :
    fileHeaders mime len ++ body ≠ notFound := by
  intro h
  have htake := congrArg (List.take 12) h
  unfold fileHeaders notFound at htake
  rw [List.append_assoc, List.append_assoc, List.append_assoc,
    List.take_append_of_le_length (by decide),
    List.take_append_of_le_length (by decide)] at htake
  exact absurd htake (by decide)

/-- Every file outside the served directory is there, and is empty. -/
def outsideFiles (socket : List (Option Bytes)) : Env where
  socket := socket
  metadata path := if Confined path then none else some ⟨false, 0⟩
  file path := if Confined path then none else some []
  readDir _ := none

/-- There are no files. -/
def noFiles (socket : List (Option Bytes)) : Env := ⟨socket, fun _ => none, fun _ => none, fun _ => none⟩

theorem sameInside_outsideFiles (socket : List (Option Bytes)) :
    SameInside (noFiles socket) (outsideFiles socket) :=
  ⟨fun _ h => if_pos h, fun _ h => if_pos h, fun _ _ => rfl⟩

theorem DisclosesInside.buildsInside (h : DisclosesInside socket) : BuildsInside socket := by
  intro r hparse
  by_contra houtside
  have hsame := h _ _ rfl rfl (sameInside_outsideFiles socket)
  have hnone : handleSocket (noFiles socket) = .ok notFound := by
    unfold handleSocket noFiles
    rw [hparse]
  have hfile : handleSocket (outsideFiles socket) =
      .ok (fileHeaders (getMimeType ('.' :: r.path)) 0 ++ copyFile zeroBuffer []) := by
    unfold handleSocket outsideFiles serveFile
    rw [hparse]
    simp [houtside]
  rw [hnone, hfile] at hsame
  exact fileHeaders_ne_notFound _ _ _ (Except.ok.inj hsame).symm

theorem buildsInside_iff : BuildsInside socket ↔
    ∀ r, parseRequest socket = .ok r → StaysInside r.path :=
  ⟨fun h r hparse => confined_dot_iff.mp (h r hparse),
    fun h r hparse => confined_dot_iff.mpr (h r hparse)⟩

theorem BuildsInside.disclosesInside (h : BuildsInside socket) : DisclosesInside socket := by
  intro env env' henv henv' hsame
  subst henv
  exact (handleSocket_same hsame henv' h).symm

/-- **What a connection discloses** lies inside the served directory if and only if the path of the
request stays there, whatever the file system; and this is when the path that is built for it does
not lead out of the directory. -/
theorem disclosure_inside_iff (socket : List (Option Bytes)) :
    (DisclosesInside socket ↔ ∀ r, parseRequest socket = .ok r → StaysInside r.path) ∧
      (BuildsInside socket ↔ ∀ r, parseRequest socket = .ok r → StaysInside r.path) :=
  ⟨⟨fun h => buildsInside_iff.mp h.buildsInside, fun h => (buildsInside_iff.mpr h).disclosesInside⟩,
    buildsInside_iff⟩

/-- `GET /../a` discloses a file beside the served directory. -/
theorem not_disclosesInside_up : ¬ ∀ socket, DisclosesInside socket ∧ BuildsInside socket := by
  intro hall
  have hbuilds := (hall [some (utf8 "GET /../a HTTP/1.0\r\n\r\n".toList)]).1.buildsInside
  have hparse : parseRequest [some (utf8 "GET /../a HTTP/1.0\r\n\r\n".toList)] =
      .ok ⟨"GET".toList, "/../a".toList⟩ := by decide
  exact absurd (hbuilds _ hparse) (by decide)

end OsTools.Http
