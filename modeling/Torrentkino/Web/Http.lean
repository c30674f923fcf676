import Torrentkino.Shr.Random
import Torrentkino.Web.Mime
import Torrentkino.Web.NodeTcp

/-!
# `web/http.c`

The parser for requests, and the responses.  What the server reads from the
machine it runs on is gathered in `Host`: the configured directory, the files
and the clock.  The connections share the table of file types and the random
numbers, `Server`.

`http_buf` takes the first request out of the buffer and hands it to
`http_read`, which calls `http_buf` again when there is more in the buffer.
Here `httpRequest` is one round of that, and `httpBuf` repeats it.
-/

namespace Torrentkino

open Memory CString Decimal

/-- What does not change while the server runs. -/
structure Host where
  /-- `conf->home` -/
  home : Bytes
  /-- `conf->file` -/
  file : Bytes
  files : Files
  magic : Bytes → Option Bytes
  now : Int

/-- What all connections share. -/
structure Server where
  mime : Hash Bytes
  random : Random

/-- `LOG_NAME` -/
def logName : Bytes := cstr "tumbleweed"

/-- The end of a line. -/
def crlf : Bytes := [13, 10]

/-! ## The URL -/

/-- The value of a hexadecimal digit. -/
def hexDigit (c : UInt8) : Option UInt8 :=
  if '0'.toUInt8 ≤ c ∧ c ≤ '9'.toUInt8 then some (c - '0'.toUInt8)
  else if 'a'.toUInt8 ≤ c ∧ c ≤ 'f'.toUInt8 then some (c - 'a'.toUInt8 + 10)
  else if 'A'.toUInt8 ≤ c ∧ c ≤ 'F'.toUInt8 then some (c - 'A'.toUInt8 + 10)
  else none

/-- One hexadecimal digit. -/
def scanDigit : Bytes → Option UInt8
  | [] => none
  | c :: _ => hexDigit c

/-- `sscanf(s, "%2x", &hex)` with `hex` as it was before the call, reduced to a
`char`; `none` stands for the result zero.  White space is skipped, a sign
counts as one of the two characters, and `0x` is the number zero.  When there
is nothing but white space, the result is `EOF` and the variable keeps its
value. -/
def scanHex (hex : UInt8) (s : Bytes) : Option UInt8 :=
  match s.dropWhile isSpace with
  | [] => some hex
  | c :: s =>
      if c = '+'.toUInt8 then scanDigit s
      else if c = '-'.toUInt8 then (scanDigit s).map fun d => 0 - d
      else
        match hexDigit c with
        | none => none
        | some d =>
            match scanDigit s with
            | none => some d
            | some d' => some (16 * d + d')

/-- The loop of `http_urlDecode`, with the room that is left in the
destination. -/
def urlDecodeLoop : Nat → UInt8 → Bytes → Option Bytes
  | 0, _, _ => some []
  | _ + 1, _, [] => some []
  | dstlen + 1, hex, c :: src =>
      if c = '+'.toUInt8 then (urlDecodeLoop dstlen hex src).map (' '.toUInt8 :: ·)
      else if c = '%'.toUInt8 then
        match src with
        | a :: b :: rest =>
            match scanHex hex (a :: b :: rest) with
            | none => none
            | some hex => (urlDecodeLoop dstlen hex rest).map (hex :: ·)
        | _ => none
      else (urlDecodeLoop dstlen hex src).map (c :: ·)

/-- `http_urlDecode`, with `none` for the result zero. -/
def httpUrlDecode (src : Bytes) : Option Bytes :=
  match urlDecodeLoop bufSize 0 src with
  | some (c :: dst) => some (c :: dst)
  | _ => none

/-- `http_resource` -/
def httpResource (url : Bytes) : Option Bytes :=
  match httpUrlDecode url with
  | none => none
  | some dst =>
      let resource := cString dst
      if resource.head? ≠ some '/'.toUInt8 then none
      else if (strstr resource (cstr "../")).isSome then none
      else if strIsValidUTF8 resource then some resource
      else none

/-- `http_filename` -/
def httpFilename (host : Host) (resource : Bytes) : Option Bytes :=
  let filename := (host.home ++ resource).take bufOff1
  if fileIsreg host.files filename then some filename
  else if fileIsdir host.files filename then
    let filename := host.home ++ resource ++ cstr "/" ++ host.file
    if filename.length ≥ bufSize then none
    else if fileIsreg host.files filename then some filename
    else none
  else none

/-! ## The header -/

/-- The body of the loop of `http_hashHeader`. -/
def httpPutHeader (hash : Hash Bytes) (line : Bytes) : Option (Hash Bytes) :=
  match cutAt ':'.toUInt8 line with
  | none => none
  | some (var, val) => some (hashPut hash var (some (val.dropWhile (· = ' '.toUInt8)))).2

/-- `http_hashHeader` -/
def httpHashHeader (head : Bytes) : Option (Hash Bytes) :=
  let headCounter := strCount head crlf
  if headCounter ≥ 100 then none
  else if h : 0 < headCounter then
    (pieces crlf (head.length + 1) head).foldlM httpPutHeader (hashInit headCounter h)
  else none

/-- `hash_get` on a header; without a header there is nothing to find. -/
def headGet (head : Option (Hash Bytes)) (key : String) : Option Bytes :=
  head.bind fun hash => hashGet hash (cstr key)

/-- `http_keepalive`: the mode and the line for the response. -/
def httpKeepalive (head : Option (Hash Bytes)) : Keepalive × Bytes :=
  match headGet head "Connection" with
  | none => (.undef, [])
  | some value =>
      if eqIgnoreCase value (cstr "keep-alive") then
        (.keepalive, cstr "Connection: keep-alive\r\n")
      else if eqIgnoreCase value (cstr "close") then
        (.close, cstr "Connection: close\r\n")
      else (.undef, [])

/-- `http_resource_modified` -/
def httpResourceModified (head : Option (Hash Bytes)) (lastmodified : Bytes) : Bool :=
  match headGet head "If-Modified-Since" with
  | none => true
  | some value => value ≠ lastmodified

/-- `http_range_detected` -/
def httpRangeDetected (head : Option (Hash Bytes)) : Option Bytes :=
  headGet head "Range"

/-- `http_range_prepare` -/
def httpRangePrepare (range : Bytes) : Option Bytes :=
  if (cstr "bytes=").isPrefixOf range then some (range.drop 6) else none

/-- `http_range_multipart` -/
def httpRangeMultipart (range : Bytes) : Bool :=
  range.contains ','.toUInt8

/-- `http_proto` -/
def httpProto (proto : Bytes) : Bool :=
  (cstr "HTTP/1.1").isPrefixOf proto || (cstr "HTTP/1.0").isPrefixOf proto

/-- `http_action` -/
def httpAction (cmd : Bytes) : Bool :=
  (cstr "GET").isPrefixOf cmd

/-! ## Texts -/

/-- The page of `http_404`. -/
def notFoundPage : Bytes :=
  cstr "<!DOCTYPE html>" ++
  cstr "<html lang=\"en\" xml:lang=\"en\">" ++
  cstr "<head>" ++
  cstr "<meta http-equiv=\"Content-Type\" content=\"text/html; charset=utf-8\" />" ++
  cstr "<title>Not found</title>" ++
  cstr "</head>" ++ cstr "<body>" ++ cstr "<h1>Not found</h1>" ++ cstr "</body>" ++
  cstr "</html>"

/-- The text of `http_404` -/
def http404Text (host : Host) (keepalive : Bytes) : Bytes :=
  cstr "HTTP/1.1 404 Not found\r\n" ++
  cstr "Date: " ++ strGMTtime host.now ++ crlf ++
  cstr "Server: " ++ logName ++ crlf ++
  cstr "Content-Length: " ++ decimal notFoundPage.length ++ crlf ++
  cstr "Content-Type: text/html; charset=utf-8\r\n" ++
  keepalive ++ crlf ++ notFoundPage

/-- The text of `http_304` -/
def http304Text (host : Host) (keepalive : Bytes) : Bytes :=
  cstr "HTTP/1.1 304 Not Modified\r\n" ++
  cstr "Date: " ++ strGMTtime host.now ++ crlf ++
  cstr "Server: " ++ logName ++ crlf ++
  keepalive ++ crlf

/-- The text of `http_200` -/
def http200Text (host : Host) (lastmodified : Bytes) (filesize : Nat)
    (keepalive mimetype : Bytes) : Bytes :=
  cstr "HTTP/1.1 200 OK\r\n" ++
  cstr "Date: " ++ strGMTtime host.now ++ crlf ++
  cstr "Server: " ++ logName ++ crlf ++
  cstr "Content-Length: " ++ decimal filesize ++ crlf ++
  cstr "Content-Type: " ++ mimetype ++ crlf ++
  cstr "Last-Modified: " ++ lastmodified ++ crlf ++
  cstr "Accept-Ranges: bytes\r\n" ++
  keepalive ++ crlf

/-- `bytes %lu-%lu/%lu` -/
def contentRange (rangeStart rangeStop filesize : Nat) : Bytes :=
  cstr "Content-Range: bytes " ++ decimal rangeStart ++ cstr "-" ++ decimal rangeStop ++
    cstr "/" ++ decimal filesize ++ crlf

/-- The text of `http_206_simple` -/
def http206SimpleText (host : Host) (rangeStart rangeStop : Nat) (lastmodified : Bytes)
    (filesize contentLength : Nat) (keepalive mimetype : Bytes) : Bytes :=
  cstr "HTTP/1.1 206 OK\r\n" ++
  cstr "Date: " ++ strGMTtime host.now ++ crlf ++
  cstr "Server: " ++ logName ++ crlf ++
  cstr "Content-Length: " ++ decimal contentLength ++ crlf ++
  contentRange rangeStart rangeStop filesize ++
  cstr "Content-Type: " ++ mimetype ++ crlf ++
  cstr "Last-Modified: " ++ lastmodified ++ crlf ++
  keepalive ++ crlf

/-- The text of `http_206_complex` -/
def http206ComplexText (host : Host) (lastmodified : Bytes) (contentLength : Nat)
    (boundary keepalive : Bytes) : Bytes :=
  cstr "HTTP/1.1 206 Partial Content\r\n" ++
  cstr "Server: " ++ logName ++ crlf ++
  cstr "Date: " ++ strGMTtime host.now ++ crlf ++
  cstr "Content-Type: multipart/byteranges; boundary=" ++ boundary ++ crlf ++
  cstr "Content-Length: " ++ decimal contentLength ++ crlf ++
  cstr "Last-Modified: " ++ lastmodified ++ crlf ++
  keepalive ++ crlf

/-- The text of `http_206_boundary_head` -/
def http206BoundaryHeadText (rangeStart rangeStop filesize : Nat)
    (mimetype boundary : Bytes) : Bytes :=
  cstr "--" ++ boundary ++ crlf ++
  cstr "Content-Type: " ++ mimetype ++ crlf ++
  contentRange rangeStart rangeStop filesize ++ crlf

/-- The text of `http_206_boundary_finish` -/
def http206BoundaryFinishText (boundary : Bytes) : Bytes :=
  cstr "--" ++ boundary ++ cstr "--\r\n"

/-- The characters of a boundary. -/
def alphanum : Bytes :=
  cstr "0123456789abcdefghijklmnopqrstuvwxyz"

/-- The loop of `http_random`. -/
def randomChars : Nat → Random → Bytes × Random
  | 0, rnd => ([], rnd)
  | size + 1, rnd =>
      let drawn := rnd.draw
      let rest := randomChars size drawn.2
      (alphanum.getD (drawn.1 % alphanum.length) 0 :: rest.1, rest.2)

/-- `http_random`: the last character gives way to the terminating NUL. -/
def httpRandom (size : Nat) (rnd : Random) : Bytes × Random :=
  let chars := randomChars size rnd
  (chars.1.take (size - 1), chars.2)

/-! ## Ranges -/

/-- Addition of `size_t` numbers. -/
def addSize (a b : Nat) : Nat :=
  (a + b) % 2 ^ 64

/-- One end of a range, with the value for a missing number. -/
def rangeNumber (text : Bytes) (missing : Nat) : Option Nat :=
  if text = [] then some missing
  else if strIsNumber text then some (strtol text).val.toNat
  else none

/-- `http_range_simple`: offset, stop and the new content length. -/
def httpRangeSimple (filesize : Nat) (range : Bytes) (contentLength : Nat) :
    Option (Nat × Nat × Nat) :=
  if filesize = 0 then none
  else
    match cutAt '-'.toUInt8 (range.take bufOff1) with
    | none => none
    | some (start, stop) =>
        match rangeNumber start 0, rangeNumber stop (filesize - 1) with
        | some rangeStart, some rangeStop =>
            if rangeStart ≥ filesize then none
            else if rangeStop < rangeStart then none
            else
              let rangeStop := if rangeStop ≥ filesize then filesize - 1 else rangeStop
              some (rangeStart, rangeStop,
                addSize contentLength (rangeStop + 1 - rangeStart))
        | _, _ => none

/-- The file that a multipart response is made of. -/
structure RangeFile where
  filename : Bytes
  filesize : Nat
  mimetype : Bytes
  boundary : Bytes

/-- `http_range_complex`, on the ranges between the commas: the queue, and the
new content length if all of them are valid. -/
def httpRangeComplex (f : RangeFile) :
    List Response → List Bytes → Nat → List Response × Option Nat
  | list, [], contentLength => (list, some contentLength)
  | list, range :: ranges, contentLength =>
      let i := list.length
      match respPut list .fromMemory with
      | none => (list, none)
      | some list =>
      match respPut list .fromFile with
      | none => (list, none)
      | some list =>
      match respPut list .fromMemory with
      | none => (list, none)
      | some list =>
      match httpRangeSimple f.filesize range contentLength with
      | none => (list, none)
      | some (fOffset, fStop, contentLength) =>
          let head := http206BoundaryHeadText fOffset fStop f.filesize f.mimetype f.boundary
          let list := list.set (i + 1) (.file f.filename fOffset fStop)
          let list := list.set i (respSetMemory head)
          let contentLength := addSize contentLength (sendBuf head).length
          let list := list.set (i + 2) (respSetMemory crlf)
          let contentLength := addSize contentLength (sendBuf crlf).length
          httpRangeComplex f list ranges contentLength

/-! ## Requests -/

/-- A response of one part: `http_404`, `http_304`, and the header of
`http_200`.  It is skipped when the queue is full. -/
def httpPart (n : TcpNode) (r : Response) : TcpNode :=
  match respPut n.response r with
  | none => n
  | some list => { n with response := list }

/-- `http_404` -/
def http404 (host : Host) (n : TcpNode) (keepalive : Bytes) : TcpNode :=
  httpPart n (respSetMemory (http404Text host keepalive))

/-- `http_304` -/
def http304 (host : Host) (n : TcpNode) (keepalive : Bytes) : TcpNode :=
  httpPart n (respSetMemory (http304Text host keepalive))

/-- `http_200` -/
def http200 (host : Host) (n : TcpNode) (lastmodified : Bytes) (filesize : Nat)
    (keepalive mimetype : Bytes) : TcpNode :=
  httpPart n (respSetMemory (http200Text host lastmodified filesize keepalive mimetype))

/-- `http_body` -/
def httpBody (n : TcpNode) (filename : Bytes) (filesize : Nat) : TcpNode :=
  if filesize = 0 then n
  else httpPart n (.file filename 0 (filesize - 1))

/-- The end of the connection after a request that was not understood. -/
def httpRefuse (n : TcpNode) : TcpNode :=
  nodeStatus n .shutdown

/-- The part of `http_read` for one range. -/
def httpReadSimple (host : Host) (n : TcpNode) (filename lastmodified : Bytes)
    (filesize : Nat) (keepalive mimetype range : Bytes) : TcpNode :=
  let i := n.response.length
  match respPut n.response .fromMemory with
  | none => httpRefuse n
  | some list =>
  match respPut list .fromFile with
  | none => httpRefuse { n with response := list }
  | some list =>
  match httpRangeSimple filesize range 0 with
  | none => httpRefuse { n with response := list }
  | some (fOffset, fStop, contentLength) =>
      let list := list.set (i + 1) (.file filename fOffset fStop)
      let list := list.set i (respSetMemory (http206SimpleText host fOffset fStop
        lastmodified filesize contentLength keepalive mimetype))
      { n with response := list }

/-- The part of `http_read` for more than one range. -/
def httpReadComplex (host : Host) (n : TcpNode) (f : RangeFile)
    (lastmodified keepalive range : Bytes) : TcpNode :=
  let i := n.response.length
  match respPut n.response .fromMemory with
  | none => httpRefuse n
  | some list =>
  match respPut list .fromMemory with
  | none => httpRefuse { n with response := list }
  | some list =>
  match httpRangeComplex f list ((range.take bufOff1).splitOn ','.toUInt8) 0 with
  | (list, none) => httpRefuse { n with response := list }
  | (list, some contentLength) =>
      let j := list.length
      match respPut list .fromMemory with
      | none => httpRefuse { n with response := list }
      | some list =>
          let finish := http206BoundaryFinishText f.boundary
          let list := list.set j (respSetMemory finish)
          let contentLength := addSize contentLength (sendBuf finish).length
          let list := list.set i (respSetMemory (http206ComplexText host lastmodified
            contentLength f.boundary keepalive))
          -- zsync bug? One more CRLF between header and body.
          let list := list.set (i + 1) (respSetMemory crlf)
          { n with response := list }

/-- The fields of a request. -/
structure HttpFields where
  cmd : Bytes
  url : Bytes
  proto : Bytes
  head : Option (Hash Bytes)

/-- The second half of `http_read`: the response for a file. -/
def httpReadFile (host : Host) (srv : Server) (n : TcpNode)
    (head : Option (Hash Bytes)) (filename keepalive : Bytes) : Server × TcpNode :=
  let filesize := fileSize host.files filename
  let mime := mimeFind host.files host.magic srv.mime filename
  let srv := { srv with mime := mime.2 }
  let lastmodified := strGmttime (fileMod host.files filename)
  if httpResourceModified head lastmodified then
    match (httpRangeDetected head).bind httpRangePrepare with
    | none =>
        (srv, httpBody (http200 host n lastmodified filesize keepalive mime.1) filename filesize)
    | some range =>
        if httpRangeMultipart range then
          let boundary := httpRandom 12 srv.random
          ({ srv with random := boundary.2 },
            httpReadComplex host n ⟨filename, filesize, mime.1, boundary.1⟩ lastmodified
              keepalive range)
        else
          (srv, httpReadSimple host n filename lastmodified filesize keepalive mime.1 range)
  else (srv, http304 host n keepalive)

/-- `http_read`, without the call for the next request. -/
def httpRead (host : Host) (srv : Server) (n : TcpNode) (fields : HttpFields) :
    Server × TcpNode :=
  if httpProto fields.proto then
    if httpAction fields.cmd then
      match httpResource fields.url with
      | none => (srv, httpRefuse n)
      | some resource =>
          let keepalive := httpKeepalive fields.head
          let n := { n with keepalive := keepalive.1 }
          match httpFilename host resource with
          | none => (srv, http404 host n keepalive.2)
          | some filename => httpReadFile host srv n fields.head filename keepalive.2
    else (srv, httpRefuse n)
  else (srv, httpRefuse n)

/-- The fields that `http_buf` finds in the text of a request. -/
def httpFields (text : Bytes) : Option HttpFields :=
  match cutAt ' '.toUInt8 text with
  | none => none
  | some (cmd, text) =>
  match cutAt ' '.toUInt8 text with
  | none => none
  | some (url, text) =>
  match strstr text crlf with
  | none => none
  | some i =>
      some
        { cmd := cmd
          url := url.takeWhile (· ≠ '?'.toUInt8)
          proto := text.take i
          head := httpHashHeader (text.drop (i + 2)) }

/-- One request. -/
def httpRequest (host : Host) (srv : Server) (n : TcpNode) (text : Bytes) :
    Server × TcpNode :=
  match httpFields text with
  | none => (srv, httpRefuse n)
  | some fields => httpRead host srv n fields

/-- The end of a header. -/
def crlfcrlf : Bytes := crlf ++ crlf

/-- The first request in the buffer and what is behind it, once it is
complete. -/
def httpCut (recvBuf : Bytes) : Option (Bytes × Bytes) :=
  if recvBuf.length ≤ 14 then none
  else
    match strstr (cString recvBuf) crlfcrlf with
    | none => none
    | some i => some (recvBuf.take (i + 4), recvBuf.drop (i + 4))

/-- The text that is parsed: one of the two line ends is kept. -/
def requestText (request : Bytes) : Bytes :=
  request.take (request.length - 2)

/-- `http_buf` and `http_read`, which call each other. -/
def httpBufLoop (host : Host) : Nat → Server → TcpNode → Server × TcpNode
  | 0, srv, n => (srv, n)
  | fuel + 1, srv, n =>
      match httpCut n.recvBuf with
      | none => (srv, n)
      | some (request, _) =>
          let served := httpRequest host srv (n.dropRecv request.length) (requestText request)
          if served.2.pipeline ≠ .shutdown ∧ served.2.recvBuf ≠ [] then
            httpBufLoop host fuel served.1 served.2
          else served

/-- `http_buf`.  Every round takes something out of the buffer. -/
def httpBuf (host : Host) (srv : Server) (n : TcpNode) : Server × TcpNode :=
  httpBufLoop host (n.recvBuf.length + 1) srv n

end Torrentkino
