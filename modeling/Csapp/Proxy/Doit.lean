import Csapp.Lib.Run
import Csapp.Proxy.Cache

/-!
# Proxy.Doit — one request

`doit` reads a request, looks its URI up in the cache, and otherwise relays the request to the host: the one
in the URI, or that of a `Host:` header.  What comes from outside is part of the request: what the client
sends and takes, what the host answers, the times, and what stands in `extra_hdrs` before anything is copied
into it.  Where the code leaves an array there is no result.
-/

namespace Csapp.Proxy

open Csapp.Lib

/-! ## Reading -/

/-- What is left to read of a connection, and whether it ends in an error. -/
structure Stream where
  text : Text
  failed : Bool

/-- At most `n` characters, up to the end of the line; and the rest. -/
def splitLine : ℕ → Text → Text × Text
  | 0, s => ([], s)
  | _ + 1, [] => ([], [])
  | n + 1, c :: s => if c = '\n' then ([c], s) else ((c :: (splitLine n s).1), (splitLine n s).2)

/-- `rio_readlineb` with a buffer of `MAXLINE` characters; no line at the end of the file and after an
error. -/
def rio_readlineb (rio : Stream) : Option (Text × Stream) :=
  let (line, rest) := splitLine (MAXLINE - 1) rio.text
  if line.getLast? = some '\n' ∨ line.length = MAXLINE - 1 then some (line, { rio with text := rest })
  else if rio.failed = true ∨ line = [] then none
  else some (line, { rio with text := rest })

/-- The C string that a buffer holds. -/
def cstr (buf : Text) : Text := buf.takeWhile (· ≠ '\x00')

/-- Equal up to case, `strcasecmp`. -/
def strcaseeq (s t : Text) : Bool := s.map Char.toLower = t.map Char.toLower

/-- The host and the path. -/
def parse_uri (uri : Text) : Option (Text × Text) :=
  let scheme := "http://".toList
  if strcaseeq (uri.take scheme.length) scheme then
    (strchr '/' (uri.drop scheme.length)).map fun p => (p.1, '/' :: p.2)
  else none

/-- The host name and the port. -/
def parse_host (host : Text) : Text × Text :=
  match strchr ':' host with
  | some p => p
  | none => (host, "80".toList)

/-- The outcome of `read_requesthdrs`: -1, more than the array holds, or the extra headers and the host. -/
inductive Headers
  | failed
  | overflow
  | ok (extra_hdrs host : Text)

/-- At most `n` lines. -/
def read_requesthdrs : ℕ → Stream → Text → Text → Headers
  | 0, _, _, _ => .failed
  | n + 1, rio, extra_hdrs, host =>
    match rio_readlineb rio with
    | none => .failed
    | some (line, rio) =>
      let buf := cstr line
      if buf = "\r\n".toList then .ok extra_hdrs host else
      match scanWord buf with
      | none => .failed
      | some (hdr_key, rest) =>
        match scanWord rest with
        | none => .failed
        | some (hdr_val, _) =>
          if hdr_key = "Host:".toList then read_requesthdrs n rio extra_hdrs hdr_val
          else if hdr_key = "User-Agent:".toList ∨ hdr_key = "Connection:".toList ∨
              hdr_key = "Proxy-Connection:".toList then
            read_requesthdrs n rio extra_hdrs host
          else if MAXLINE ≤ (extra_hdrs ++ buf).length then .overflow
          else read_requesthdrs n rio (extra_hdrs ++ buf) host

/-! ## A request and what the other parties do -/

/-- What happens on the connection to the host: whether it opens and takes the request, and what it answers
before it ends, in an error or not. -/
structure Remote where
  opened : Bool
  written : Bool
  response : List UInt8
  failed : Bool

structure Request where
  input : Stream
  /-- the string that `extra_hdrs` happens to hold -/
  junk : Text
  remote : Remote
  /-- how many blocks the client takes -/
  takes : ℕ
  getClock : ℤ
  putClock : ℤ

/-- A request that has been read. -/
structure Parsed where
  uri : Key
  host : Text
  path : Text
  extra_hdrs : Text

inductive ReadResult
  | failed
  | overflow
  | ok (p : Parsed)

/-- `doit`, up to the look into the cache. -/
def read_request (r : Request) : ReadResult :=
  match rio_readlineb r.input with
  | none => .failed
  | some (line, rio) =>
    match scanWord (cstr line) with
    | none => .failed
    | some (method, rest) =>
      match scanWord rest with
      | none => .failed
      | some (uri, rest) =>
        match scanWord rest with
        | none => .failed
        | some _ =>
          if strcaseeq method "GET".toList = false then .failed else
          match parse_uri uri with
          | none => .failed
          | some (host, path) =>
            match read_requesthdrs (rio.text.length + 1) rio [] host with
            | .failed => .failed
            | .overflow => .overflow
            | .ok extra_hdrs host =>
              if huri : uri.length < MAXLINE then
                .ok ⟨⟨uri, huri⟩, host, path, if extra_hdrs = [] then r.junk else extra_hdrs⟩
              else .overflow

/-! ## Relaying -/

def user_agent_hdr : Text :=
  "User-Agent: Mozilla/5.0 (X11; Linux x86_64; rv:10.0.3) Gecko/20120305 Firefox/10.0.3\r\n".toList

/-- What `write_requesthdrs` sends. -/
def requesthdrs (host path extra_hdrs : Text) : Text :=
  "GET ".toList ++ path ++ " HTTP/1.0\r\nHost: ".toList ++ host ++ "\r\n".toList ++ user_agent_hdr ++
    "Connection: close\r\nProxy-Connection: close\r\n".toList ++ extra_hdrs ++ "\r\n".toList

/-- The loop that relays the response, at most `n` blocks: what it leaves in `obj` and in `obj_size`, or
`none` if a read or a write fails. -/
def tunnel : ℕ → List UInt8 → Bool → ℕ → List UInt8 → ℕ → Option (List UInt8 × ℕ)
  | 0, _, _, _, _, _ => none
  | n + 1, response, failed, takes, obj, obj_size =>
    let buf := response.take MAXLINE
    if buf.length < MAXLINE ∧ failed = true then none
    else if buf ≠ [] ∧ takes = 0 then none
    else
      let obj := if obj_size + buf.length ≤ MAX_OBJECT_SIZE then obj ++ buf else obj
      if buf.length = MAXLINE then
        tunnel n (response.drop MAXLINE) failed (takes - 1) obj (obj_size + buf.length)
      else some (obj, obj_size + buf.length)

/-- A response that has been relayed, with the request that it answers. -/
structure Relay where
  uri : Key
  origin : Text × Text
  path : Text
  response : List UInt8

/-- What the client gets: nothing, or a part of a response; an object of the cache; a response. -/
inductive Reply
  | failed
  | hit (obj : Value)
  | relayed (relay : Relay)

/-- `doit` after a miss. -/
def relay (c : Cache) (r : Request) (p : Parsed) : Option (Reply × Cache) :=
  if r.remote.opened = false then some (.failed, c)
  else if MAXLINE ≤ (requesthdrs p.host p.path p.extra_hdrs).length then none
  else if r.remote.written = false then some (.failed, c)
  else
    match tunnel (r.remote.response.length / MAXLINE + 1) r.remote.response r.remote.failed r.takes [] 0 with
    | none => some (.failed, c)
    | some (obj, obj_size) =>
      let reply := .relayed ⟨p.uri, parse_host p.host, p.path, r.remote.response⟩
      if h : obj_size ≤ MAX_OBJECT_SIZE then
        some (reply, c.cache_put p.uri ⟨obj.take obj_size, (List.length_take_le _ _).trans h⟩ r.putClock)
      else some (reply, c)

def doit (c : Cache) (r : Request) : Option (Reply × Cache) :=
  match read_request r with
  | .failed => some (.failed, c)
  | .overflow => none
  | .ok p =>
    match c.cache_get p.uri r.getClock with
    | (some obj, c) => some (.hit obj, c)
    | (none, c) => relay c r p

/-- The cache, and the responses that have been relayed, the latest one first. -/
structure World where
  cache : Cache
  log : List Relay

def World.start : World := ⟨cache_init, []⟩

def World.add (w : World) : Reply × Cache → World
  | (.relayed relay, c) => ⟨c, relay :: w.log⟩
  | (_, c) => ⟨c, w.log⟩

def proxy : System World Request Reply where
  init w := w = .start
  legal _ _ := True
  exec w r := (doit w.cache r).map fun x => (x.1, w.add x)

end Csapp.Proxy
