import Csapp.Lib.Slice
import Csapp.Lib.Text
import Mathlib.Logic.Function.Basic

/-!
# ReverseProxy.Cache — the cache files of `03-http-reverse-proxy`

`cacheResponse` appends what it reads of a body to the cache file.  `checkCacheAndServe` reads the file with a
buffer of 4096 bytes, always to the start of the buffer, and then takes as many bytes of the buffer as the
file has.  A file that does not fit panics, and a second body is served behind the first one.  So a path serves
the body that was cached last only if that fits and nothing was cached before it (`serves_iff`).

Bytes of files and of responses are `UInt8`.  The calls of the operating system are taken to succeed, and
`Read` of a file to fill the buffer while there is enough left.  `none` is a panic.
-/

namespace Csapp.ReverseProxy

open Csapp.Lib

/-! ## Responses -/

def ascii (s : Text) : List UInt8 := s.map fun c => UInt8.ofNat c.toNat

def crlf : List UInt8 := [13, 10]

/-- The fields of `http.Response` that differ; the status is 200. -/
structure Response where
  body : List UInt8
  contentLength : ℕ
  contentType : Text

def sampleResponse (body : List UInt8) : Response := ⟨body, body.length, "application/json".toList⟩

def Response.lengthLine (t : Response) : List UInt8 := ascii ("Content-Length: ".toList ++ itoa t.contentLength)

def Response.typeLine (t : Response) : List UInt8 := ascii ("Content-Type: ".toList ++ t.contentType)

/-- A length of 0 is written behind the other fields. -/
def Response.lines (t : Response) : List (List UInt8) :=
  if 0 < t.contentLength then [ascii "HTTP/1.1 200 OK".toList, t.lengthLine, t.typeLine]
  else [ascii "HTTP/1.1 200 OK".toList, t.typeLine, t.lengthLine]

/-- `response.Write`, where the body is as long as the response says. -/
def Response.write (t : Response) : List UInt8 := t.lines.flatMap (· ++ crlf) ++ (crlf ++ t.body)

/-! ## The cache -/

abbrev Files := Text → Option (List UInt8)

def bufferSize : ℕ := 4096

/-- What one `Read` into a buffer can return. -/
abbrev Chunk := {l : List UInt8 // l.length ≤ bufferSize}

/-- The results of `Body.Read`; the last one comes with `io.EOF` or with another error. -/
structure Body where
  chunks : List Chunk
  last : Chunk
  err : Option Text

def Body.content (body : Body) : List UInt8 := body.chunks.flatMap Subtype.val ++ body.last.val

/-- The loop of `cacheResponse` with what is left to read: the buffer and the cache file. -/
def cacheLoop (last : Chunk) (err : Option Text) :
    List Chunk → List UInt8 → List UInt8 → Except Text Unit × List UInt8
  | [], respData, cacheFile =>
    match err with
    | none => (.ok (), cacheFile ++ (readInto last.val respData).take last.val.length)
    | some err => (.error err, cacheFile)
  | chunk :: chunks, respData, cacheFile =>
    cacheLoop last err chunks (readInto chunk.val respData)
      (cacheFile ++ (readInto chunk.val respData).take chunk.val.length)

/-- The file is created if it is not there, and appended to if it is. -/
def cacheResponse (files : Files) (filePath : Text) (body : Body) : Except Text Unit × Files :=
  let res := cacheLoop body.last body.err body.chunks (List.replicate bufferSize 0) ((files filePath).getD [])
  (res.1, Function.update files filePath (some res.2))

/-- The loop of `checkCacheAndServe` with what is left of the file: the buffer and `cacheSize`. -/
def serveLoop (file serverBuffer : List UInt8) (cacheSize : ℕ) : List UInt8 × ℕ :=
  if file = [] then (serverBuffer, cacheSize)
  else
    serveLoop (file.drop bufferSize) (readInto (file.take bufferSize) serverBuffer)
      (cacheSize + (file.take bufferSize).length)
termination_by file.length
decreasing_by
  have hpos := List.length_pos_iff.mpr ‹file ≠ []›
  simp only [List.length_drop, bufferSize]
  omega

/-- `none` if `serverBuffer[:cacheSize]` panics, `some none` for `nil` if the file does not exist. -/
def checkCacheAndServe (files : Files) (filePath : Text) : Option (Option (List UInt8)) :=
  match files filePath with
  | none => some none
  | some file =>
    let res := serveLoop file (List.replicate bufferSize 0) 0
    if res.1.length < res.2 then none
    else some (some (sampleResponse (res.1.take res.2)).write)

/-! ## What a client reads -/

/-- The line up to the next line end, and what follows. -/
def readLine : List UInt8 → Option (List UInt8 × List UInt8)
  | [] => none
  | b :: rest =>
    if b = 13 ∧ rest.head? = some 10 then some ([], rest.tail)
    else (readLine rest).map fun x => (b :: x.1, x.2)

/-- The lines up to the empty one, and what follows. -/
def readHead : ℕ → List UInt8 → Option (List (List UInt8) × List UInt8)
  | 0, _ => none
  | fuel + 1, bytes =>
    match readLine bytes with
    | none => none
    | some ([], rest) => some ([], rest)
    | some (line, rest) => (readHead fuel rest).map fun x => (line :: x.1, x.2)

def contentLength? (line : List UInt8) : Option ℕ :=
  if ascii "Content-Length: ".toList <+: line then
    some (Nat.ofDigitChars 10 ((line.drop 16).map fun b => Char.ofNat b.toNat) 0)
  else none

/-- The body: as many bytes behind the empty line as `Content-Length` says. -/
def bodyOf (bytes : List UInt8) : Option (List UInt8) := do
  let (lines, rest) ← readHead bytes.length bytes
  let n ← lines.findSome? contentLength?
  if n ≤ rest.length then some (rest.take n) else none

/-- The cache has a response with this body for the path. -/
def Serves (files : Files) (filePath : Text) (body : List UInt8) : Prop :=
  ∃ response, checkCacheAndServe files filePath = some (some response) ∧ bodyOf response = some body

/-! ## Reading a response back -/

/-- The characters of header fields. -/
def Printable (s : Text) : Prop := ∀ c ∈ s, 32 ≤ c.toNat ∧ c.toNat < 127

instance (s : Text) : Decidable (Printable s) :=
  List.decidableBAll (fun c : Char => 32 ≤ c.toNat ∧ c.toNat < 127) s

theorem printable_itoa (n : ℕ) : Printable (itoa n) := by
  intro c hc
  have hd := isDigit_of_mem_itoa hc
  obtain ⟨h₁, h₂⟩ : 48 ≤ c.toNat ∧ c.toNat ≤ 57 := by simpa [Char.isDigit, UInt32.le_iff_toNat_le] using hd
  omega

theorem Printable.append {s t : Text} (hs : Printable s) (ht : Printable t) : Printable (s ++ t) := by
  intro c hc
  rcases List.mem_append.mp hc with hc | hc
  · exact hs c hc
  · exact ht c hc

theorem Printable.cr_notMem {s : Text} (h : Printable s) : 13 ∉ ascii s := by
  intro hmem
  obtain ⟨c, hc, heq⟩ := List.mem_map.mp hmem
  obtain ⟨h₁, h₂⟩ := h c hc
  have hnat := congrArg UInt8.toNat heq
  rw [UInt8.toNat_ofNat_of_lt' (lt_trans h₂ (by decide))] at hnat
  have h13 : (13 : UInt8).toNat = 13 := rfl
  omega

theorem Printable.chars {s : Text} (h : Printable s) : (ascii s).map (fun b => Char.ofNat b.toNat) = s := by
  rw [ascii, List.map_map]
  conv_rhs => rw [← List.map_id s]
  refine List.map_congr_left fun c hc => ?_
  have hlt : c.toNat < 2 ^ 8 := lt_trans (h c hc).2 (by decide)
  rw [Function.comp_apply, UInt8.toNat_ofNat_of_lt' hlt, Char.ofNat_toNat]
  rfl

theorem readLine_append : ∀ (line rest : List UInt8), 13 ∉ line →
    readLine (line ++ crlf ++ rest) = some (line, rest)
  | [], rest, _ => rfl
  | b :: line, rest, h => by
    have hb : b ≠ 13 := fun he => h (he ▸ List.mem_cons_self)
    have ih := readLine_append line rest fun hmem => h (List.mem_cons_of_mem b hmem)
    rw [List.cons_append, List.cons_append, readLine, if_neg fun hand => hb hand.1, ih]
    rfl

/-- The lines of a head come back. -/
theorem readHead_lines (rest : List UInt8) : ∀ (lines : List (List UInt8)) (fuel : ℕ),
    (∀ line ∈ lines, line ≠ [] ∧ 13 ∉ line) → lines.length < fuel →
      readHead fuel (lines.flatMap (· ++ crlf) ++ (crlf ++ rest)) = some (lines, rest)
  | [], fuel + 1, _, _ => rfl
  | line :: lines, fuel + 1, h, hf => by
    obtain ⟨hne, hcr⟩ := h line List.mem_cons_self
    have ih := readHead_lines rest lines fuel (fun l hl => h l (List.mem_cons_of_mem line hl))
      (Nat.lt_of_succ_lt_succ hf)
    obtain ⟨b, t, rfl⟩ := List.exists_cons_of_ne_nil hne
    rw [List.flatMap_cons, List.append_assoc, readHead, readLine_append _ _ hcr]
    simp only [ih, Option.map_some]

theorem length_le_flatMap_crlf (lines : List (List UInt8)) : lines.length ≤ (lines.flatMap (· ++ crlf)).length := by
  induction lines with
  | nil => exact le_rfl
  | cons line lines ih =>
    rw [List.flatMap_cons, List.length_append, List.length_append, List.length_cons]
    have hcrlf : crlf.length = 2 := rfl
    omega

section Response

variable {t : Response}

theorem contentLength?_lengthLine (t : Response) : contentLength? t.lengthLine = some t.contentLength := by
  have hsplit : t.lengthLine = ascii "Content-Length: ".toList ++ ascii (itoa t.contentLength) := List.map_append
  have hdrop : t.lengthLine.drop 16 = ascii (itoa t.contentLength) := by
    rw [hsplit]
    exact List.drop_left' (by decide)
  have hval : Nat.ofDigitChars 10 (itoa t.contentLength) 0 = t.contentLength := Nat.ofDigitChars_ten_toDigits
  rw [contentLength?, if_pos ⟨_, hsplit.symm⟩, hdrop, (printable_itoa _).chars, hval]

theorem contentLength?_typeLine (t : Response) : contentLength? t.typeLine = none := by
  have hsplit : t.typeLine = ascii "Content-Type: ".toList ++ ascii t.contentType := List.map_append
  rw [contentLength?, if_neg]
  rintro ⟨rest, hrest⟩
  -- the names of the fields differ after the minus sign
  have htake := congrArg (List.take 9) (hrest.trans hsplit)
  rw [List.take_append_of_le_length (by decide), List.take_append_of_le_length (by decide)] at htake
  exact absurd htake (by decide)

theorem mem_lines {line : List UInt8} : line ∈ t.lines ↔
    line = ascii "HTTP/1.1 200 OK".toList ∨ line = t.lengthLine ∨ line = t.typeLine := by
  rw [Response.lines]
  split_ifs
  · simp only [List.mem_cons, List.not_mem_nil, or_false]
  · rw [or_comm (a := line = t.lengthLine)]
    simp only [List.mem_cons, List.not_mem_nil, or_false]

/-- Every line of the head is printable text. -/
theorem lines_spec (ht : Printable t.contentType) : ∀ line ∈ t.lines, line ≠ [] ∧ 13 ∉ line := by
  intro line hline
  rcases mem_lines.mp hline with rfl | rfl | rfl
  · decide
  · refine ⟨by simp [Response.lengthLine, ascii], ?_⟩
    exact Printable.cr_notMem (Printable.append (by decide) (printable_itoa _))
  · refine ⟨by simp [Response.typeLine, ascii], ?_⟩
    exact Printable.cr_notMem (Printable.append (by decide) ht)

theorem findSome?_lines (t : Response) : t.lines.findSome? contentLength? = some t.contentLength := by
  have hstatus : contentLength? (ascii "HTTP/1.1 200 OK".toList) = none := by decide
  rw [Response.lines]
  split_ifs <;> simp only [List.findSome?, hstatus, contentLength?_lengthLine, contentLength?_typeLine]

/-- **The body comes back** from a response. -/
theorem bodyOf_write (ht : Printable t.contentType) (hlen : t.contentLength = t.body.length) :
    bodyOf t.write = some t.body := by
  have hle := length_le_flatMap_crlf t.lines
  have hcrlf : crlf.length = 2 := rfl
  have hhead : readHead t.write.length t.write = some (t.lines, t.body) := by
    refine readHead_lines t.body t.lines _ (lines_spec ht) ?_
    rw [Response.write, List.length_append, List.length_append]
    omega
  rw [bodyOf, hhead]
  simp only [Option.bind_eq_bind, Option.bind_some, findSome?_lines, hlen]
  rw [if_pos le_rfl, List.take_length]

end Response

theorem bodyOf_sampleResponse (body : List UInt8) : bodyOf (sampleResponse body).write = some body := by
  have htype : Printable "application/json".toList := by decide
  exact bodyOf_write (t := sampleResponse body) htype rfl

/-! ## The loops -/

/-- The loop of `cacheResponse` appends the body, however it is read. -/
theorem cacheLoop_eq (last : Chunk) : ∀ (chunks : List Chunk) (respData cacheFile : List UInt8),
    cacheLoop last none chunks respData cacheFile =
      (.ok (), cacheFile ++ (chunks.flatMap Subtype.val ++ last.val))
  | [], respData, cacheFile => by
    rw [cacheLoop, take_readInto]
    rfl
  | chunk :: chunks, respData, cacheFile => by
    rw [cacheLoop, cacheLoop_eq last chunks, take_readInto, List.flatMap_cons]
    simp only [List.append_assoc]

theorem cacheResponse_eq (files : Files) (filePath : Text) {body : Body} (h : body.err = none) :
    (cacheResponse files filePath body).2 =
      Function.update files filePath (some ((files filePath).getD [] ++ body.content)) := by
  rw [cacheResponse, h, cacheLoop_eq]
  rfl

/-- `cacheSize` is the size of the file, and the buffer keeps its own. -/
theorem serveLoop_length (file serverBuffer : List UInt8) (cacheSize : ℕ) (h : serverBuffer.length = bufferSize) :
    (serveLoop file serverBuffer cacheSize).1.length = bufferSize ∧
      (serveLoop file serverBuffer cacheSize).2 = cacheSize + file.length := by
  rw [serveLoop]
  split_ifs with hnil
  · rw [hnil]
    exact ⟨h, rfl⟩
  · have hpos := List.length_pos_iff.mpr hnil
    have hbuffer : (readInto (file.take bufferSize) serverBuffer).length = bufferSize := by
      rw [length_readInto (by rw [h]; exact List.length_take_le _ _), h]
    obtain ⟨h1, h2⟩ := serveLoop_length (file.drop bufferSize) _ (cacheSize + (file.take bufferSize).length) hbuffer
    refine ⟨h1, ?_⟩
    rw [h2, Nat.add_assoc, ← List.length_append, List.take_append_drop]
termination_by file.length
decreasing_by
  simp only [List.length_drop, bufferSize]
  omega

/-- A file that fits is read at once. -/
theorem serveLoop_fits {file : List UInt8} (h : file.length ≤ bufferSize) (serverBuffer : List UInt8) :
    (serveLoop file serverBuffer 0).1.take (serveLoop file serverBuffer 0).2 = file := by
  rw [serveLoop]
  split_ifs with hnil
  · rw [hnil, List.take_zero]
  · rw [List.take_of_length_le h, List.drop_of_length_le h, serveLoop, if_pos rfl, Nat.zero_add, take_readInto]

/-- **A cache file is served** if it fits into the buffer. -/
theorem serves_file {files : Files} {filePath : Text} {file : List UInt8} (h : files filePath = some file)
    (body : List UInt8) : Serves files filePath body ↔ file.length ≤ bufferSize ∧ file = body := by
  obtain ⟨h1, h2⟩ := serveLoop_length file (List.replicate bufferSize 0) 0 List.length_replicate
  rw [Nat.zero_add] at h2
  by_cases hfit : file.length ≤ bufferSize
  · have hcheck : checkCacheAndServe files filePath = some (some (sampleResponse file).write) := by
      simp only [checkCacheAndServe, h]
      rw [serveLoop_fits hfit, h1, h2, if_neg (not_lt.mpr hfit)]
    rw [Serves, hcheck]
    constructor
    · rintro ⟨response, hresp, hbody⟩
      rw [← Option.some.inj (Option.some.inj hresp), bodyOf_sampleResponse] at hbody
      exact ⟨hfit, Option.some.inj hbody⟩
    · rintro ⟨-, rfl⟩
      exact ⟨_, rfl, bodyOf_sampleResponse file⟩
  · have hcheck : checkCacheAndServe files filePath = none := by
      simp only [checkCacheAndServe, h]
      rw [h1, h2, if_pos (not_le.mp hfit)]
    rw [Serves, hcheck]
    refine iff_of_false ?_ fun hand => hfit hand.1
    rintro ⟨response, hresp, -⟩
    cases hresp

/-! ## Caching twice -/

section Twice

variable {files : Files} {filePath : Text} {body body₂ : Body}

theorem file_cached (hnew : files filePath = none) (heof : body.err = none) :
    (cacheResponse files filePath body).2 filePath = some body.content := by
  rw [cacheResponse_eq files filePath heof, Function.update_self, hnew]
  rfl

/-- The second body stands behind the first one. -/
theorem file_cached_twice (hnew : files filePath = none) (heof : body.err = none) (heof₂ : body₂.err = none) :
    (cacheResponse (cacheResponse files filePath body).2 filePath body₂).2 filePath =
      some (body.content ++ body₂.content) := by
  rw [cacheResponse_eq _ filePath heof₂, Function.update_self, file_cached hnew heof]
  rfl

end Twice

/-- **Caching and serving**: a body that is cached for a new path is served if it fits; one that is cached for
the path after it is served if it fits and the first one was empty. -/
theorem serves_iff (files : Files) (filePath : Text) (hnew : files filePath = none) (body body₂ : Body)
    (heof : body.err = none) (heof₂ : body₂.err = none) :
    (Serves (cacheResponse files filePath body).2 filePath body.content ↔ body.content.length ≤ bufferSize) ∧
      (Serves (cacheResponse (cacheResponse files filePath body).2 filePath body₂).2 filePath body₂.content ↔
        body.content = [] ∧ body₂.content.length ≤ bufferSize) := by
  refine ⟨(serves_file (file_cached hnew heof) _).trans (and_iff_left rfl),
    (serves_file (file_cached_twice hnew heof heof₂) _).trans ?_⟩
  constructor
  · rintro ⟨hlen, heq⟩
    have hnil := List.append_left_eq_self.mp heq
    rw [hnil, List.nil_append] at hlen
    exact ⟨hnil, hlen⟩
  · rintro ⟨hnil, hlen⟩
    rw [hnil, List.nil_append]
    exact ⟨hlen, rfl⟩

/-- A body of one byte; the read after it returns `io.EOF`. -/
def bodyOne (b : UInt8) : Body := ⟨[⟨[b], (by decide : 1 ≤ bufferSize)⟩], ⟨[], Nat.zero_le _⟩, none⟩

/-- A body of one byte is served after it has been cached. -/
theorem serves_iff_one : ∃ filePath : Text,
    Serves (cacheResponse (fun _ => none) filePath (bodyOne 49)).2 filePath [49] :=
  ⟨"./cache/a".toList, ((serves_iff (fun _ => none) "./cache/a".toList rfl (bodyOne 49) (bodyOne 50) rfl rfl).1).mpr
    (by decide)⟩

/-- Another one is not, when it is cached after the first one. -/
theorem not_serves_second : ∃ filePath : Text,
    ¬ Serves (cacheResponse (cacheResponse (fun _ => none) filePath (bodyOne 49)).2 filePath (bodyOne 50)).2
      filePath [50] := by
  have hfile : (cacheResponse (cacheResponse (fun _ => none) "./cache/a".toList (bodyOne 49)).2 "./cache/a".toList
      (bodyOne 50)).2 "./cache/a".toList = some ((bodyOne 49).content ++ (bodyOne 50).content) :=
    file_cached_twice rfl rfl rfl
  exact ⟨_, fun hserves => absurd ((serves_file hfile _).mp hserves).2 (by decide)⟩

end Csapp.ReverseProxy
