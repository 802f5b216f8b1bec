import Ant.Library.HttpMessage

/-! Responses as bytes: `http1_writer.c`, and the writer of `http_writer.c` that `node:http` calls.
Memory does not run out. -/
namespace Ant.Http.Writer
open Library ByteLayout ByteString HttpMessage

def signed (value : Int) : Bytes := match value with
  | .ofNat size => numeral 10 size
  | .negSucc size => 45 :: numeral 10 (size + 1)

/-- `%s` prints a string up to its first zero byte. -/
def printed (text : Bytes) : Bytes := untilZero text

theorem printed_plain {text : Bytes} (plain : (0 : UInt8) ∉ text) : printed text = text := untilZero_plain plain

def sameIgnoringCase (first second : Bytes) : Bool := (printed first).map toLower = (printed second).map toLower

def defaultStatusText (status : Int) : Bytes := ascii (match status with
  | 200 => "OK"
  | 201 => "Created"
  | 202 => "Accepted"
  | 204 => "No Content"
  | 301 => "Moved Permanently"
  | 302 => "Found"
  | 303 => "See Other"
  | 304 => "Not Modified"
  | 307 => "Temporary Redirect"
  | 308 => "Permanent Redirect"
  | 400 => "Bad Request"
  | 401 => "Unauthorized"
  | 403 => "Forbidden"
  | 404 => "Not Found"
  | 405 => "Method Not Allowed"
  | 408 => "Request Timeout"
  | 409 => "Conflict"
  | 410 => "Gone"
  | 413 => "Payload Too Large"
  | 415 => "Unsupported Media Type"
  | 421 => "Misdirected Request"
  | 429 => "Too Many Requests"
  | 500 => "Internal Server Error"
  | 501 => "Not Implemented"
  | 502 => "Bad Gateway"
  | 503 => "Service Unavailable"
  | 504 => "Gateway Timeout"
  | _ => "OK")

def writeChunk (chunk : Bytes) : Bytes :=
  numeral 16 chunk.length ++ ascii "\r\n" ++ (if chunk.length > 0 then chunk else []) ++ ascii "\r\n"

def writeFinalChunk : Bytes := ascii "0\r\n\r\n"

theorem writeChunk_eq (chunk : Bytes) : writeChunk chunk = encodeChunk chunk := by
  have whole : (if chunk.length > 0 then chunk else []) = chunk := by
    cases chunk <;> simp
  rw [writeChunk,whole]
  rfl

theorem writeFinalChunk_eq : writeFinalChunk = lastChunk := by decide

theorem writeChunk_empty : writeChunk [] = lastChunk := by decide

def isManaged (name : Bytes) : Bool := sameIgnoringCase name (ascii "connection") ||
  sameIgnoringCase name (ascii "content-length") || sameIgnoringCase name (ascii "transfer-encoding")

/-- The loop of `http_writer_append_raw_headers` on the pairs. -/
def appendRawHeaders : List (Bytes × Bytes) → Bytes
  | [] => []
  | (name,value) :: rest =>
    if isManaged name then appendRawHeaders rest
    else printed name ++ ascii ": " ++ printed value ++ ascii "\r\n" ++ appendRawHeaders rest

def writeHead (status : Int) (statusText : Bytes) (rawHeaders : List (Bytes × Bytes)) (bodyIsStream : Bool) (bodySize : Nat)
    (keepAlive : Bool) : Bytes :=
  ascii "HTTP/1.1 " ++ signed status ++ ascii " " ++ printed statusText ++ ascii "\r\n" ++ appendRawHeaders rawHeaders ++
    (if bodyIsStream then ascii "Transfer-Encoding: chunked\r\n"
      else ascii "Content-Length: " ++ numeral 10 bodySize ++ ascii "\r\n") ++
    ascii (if keepAlive then "Connection: keep-alive\r\n\r\n" else "Connection: close\r\n\r\n")

end Ant.Http.Writer
