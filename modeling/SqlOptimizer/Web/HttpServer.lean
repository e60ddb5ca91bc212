import SqlOptimizer.Integration.CacheClient
import SqlOptimizer.Library.Chunks
import Mathlib.Data.List.AList

/-! `web/http_server.cpp`: the request that a connection brings, and the bytes of a response. -/

namespace SqlOptimizer.Http

open Integration

structure HttpRequest where
  method : Bytes
  /-- The path without the query. -/
  path : Bytes
  query : Bytes
  /-- The values by their keys in lower case. -/
  headers : AList fun _ : Bytes => Bytes
  body : Bytes

structure HttpResponse where
  status : Int := 200
  contentType : Bytes := ascii "text/plain"
  body : Bytes

/-- The buffer of a `recv`. -/
def chunkSize : Nat := 4096

/-- The most bytes that are read before the end of the header. -/
def headerGuard : Nat := 2 ^ 20

def lineEnd : Bytes := [13, 10]

def headerTerminator : Bytes := [13, 10, 13, 10]

def toLower (s : Bytes) : Bytes := s.map fun b => if 65 ≤ b ∧ b ≤ 90 then b + 32 else b

def statusText (status : Int) : String :=
  if status = 200 then "OK"
  else if status = 400 then "Bad Request"
  else if status = 404 then "Not Found"
  else if status = 500 then "Internal Server Error"
  else "Unknown"

/-- The lines that `std::getline` gives; after a last newline there is none. -/
def getlines (s : Bytes) : List Bytes :=
  let lines := s.splitOn 10
  if lines.getLast? = some [] then lines.dropLast else lines

/-- A line without the CR at its end. -/
def dropCR (line : Bytes) : Bytes := if line.getLast? = some 13 then line.dropLast else line

/-- A word of a stream, and what follows it. -/
def extractWord (s : Bytes) : Bytes × Bytes :=
  let s := s.dropWhile Integration.isSpace
  (s.takeWhile fun b => !Integration.isSpace b, s.dropWhile fun b => !Integration.isSpace b)

/-- `std::stoul`: a negative number wraps around. -/
def stoul (s : Bytes) : Option Nat :=
  match leadingInt s with
  | none => none
  | some n => if n.natAbs < 2 ^ 64 then some (n % 2 ^ 64).toNat else none

/-- The key in lower case, and the value without the blanks in front of it. -/
def headerField (line : Bytes) : Option (Bytes × Bytes) :=
  if 58 ∈ line then
    some (toLower (line.takeWhile (· != 58)), (line.dropWhile (· != 58)).tail.dropWhile (· == 32))
  else none

/-- The chunks are those that `recv` gives. -/
def readRequest (chunks : List Bytes) : Option HttpRequest := do
  let (headerEnd, buf, chunks) ← Chunks.readUntil headerTerminator headerGuard [] chunks
  let bodySoFar := buf.drop (headerEnd + 4)
  let lines := (getlines (buf.take headerEnd)).map dropCR
  let (method, rest) := extractWord (lines.headD [])
  let (fullPath, _) := extractWord rest
  let fields := lines.tail.filterMap headerField
  let headers := fields.foldl (fun headers field => headers.insert field.1 field.2) ∅
  let contentLength ←
    match headers.lookup (ascii "content-length") with
    | none => some 0
    | some value => stoul value
  let body ← Chunks.readCount contentLength bodySoFar chunks
  return {
    method, headers, body
    path := fullPath.takeWhile (· != 63)
    query := (fullPath.dropWhile (· != 63)).tail }

/-- The lines of a message's header, an empty line, and its body. -/
def message (lines : List Bytes) (body : Bytes) : Bytes :=
  lines.flatMap (· ++ lineEnd) ++ lineEnd ++ body

def responseLines (resp : HttpResponse) : List Bytes :=
  [ascii "HTTP/1.1 " ++ intText resp.status ++ 32 :: ascii (statusText resp.status),
    ascii "Content-Type: " ++ resp.contentType,
    ascii "Content-Length: " ++ natText resp.body.length,
    ascii "Connection: close"]

/-- The bytes that `write_response` sends. -/
def writeResponse (resp : HttpResponse) : Bytes := message (responseLines resp) resp.body

end SqlOptimizer.Http
