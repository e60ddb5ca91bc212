import SqlOptimizer.Web.HttpServer

/-! `distributed/http_client.cpp`: the request of `http_post_json`, and the response it reads. -/

namespace SqlOptimizer.Http

open Integration

structure HttpClientResponse where
  status : Int
  body : Bytes

/-- An `int` taken from a stream: 0 when there is none, the nearest when it is out of range. -/
def extractInt (s : Bytes) : Int :=
  match leadingInt s with
  | none => 0
  | some n => max (-2 ^ 31) (min (2 ^ 31 - 1) n)

def readResponse (chunks : List Bytes) : Option HttpClientResponse := do
  let (headerEnd, buf, chunks) ← Chunks.readUntil headerTerminator headerGuard [] chunks
  let bodySoFar := buf.drop (headerEnd + 4)
  let lines := (getlines (buf.take headerEnd)).map dropCR
  let (_, rest) := extractWord (lines.headD [])
  let fields := lines.tail.filterMap headerField
  let contentLength ← fields.foldlM
    (fun length field => if field.1 = ascii "content-length" then stoul field.2 else some length) 0
  let body ← Chunks.readCount contentLength bodySoFar chunks
  return { status := extractInt rest, body }

def requestLines (host path jsonBody : Bytes) : List Bytes :=
  [ascii "POST " ++ path ++ ascii " HTTP/1.1",
    ascii "Host: " ++ host,
    ascii "Content-Type: application/json",
    ascii "Content-Length: " ++ natText jsonBody.length,
    ascii "Connection: close"]

/-- The bytes that `http_post_json` sends. -/
def postRequest (host path jsonBody : Bytes) : Bytes :=
  message (requestLines host path jsonBody) jsonBody

end SqlOptimizer.Http
