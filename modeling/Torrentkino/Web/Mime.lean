import Torrentkino.Shr.File
import Torrentkino.Shr.Hash
import Torrentkino.Shr.Str

/-!
# `web/mime.c`

The types of files, found by the extension of the name.  The build uses
`libmagic` for extensions that are not in the table, and remembers its answer.
-/

namespace Torrentkino

open Memory CString

/-- `mime_load` -/
def mimeTable : List (String × String) :=
  [("___", "application/octet-stream; charset=binary"),
   ("7z", "application/x-7z-compressed; charset=binary"),
   ("asf", "video/x-ms-asf; charset=binary"),
   ("asx", "video/x-ms-asf; charset=binary"),
   ("avi", "video/x-msvideo; charset=binary"),
   ("bz2", "application/x-bzip2; charset=binary"),
   ("css", "text/css"),
   ("deb", "application/x-debian-package; charset=binary"),
   ("divx", "video/x-msvideo; charset=binary"),
   ("dsc", "text/plain; charset=utf-8"),
   ("gif", "image/gif; charset=binary"),
   ("gpg", "application/pgp-signature; charset=utf-8"),
   ("gz", "application/x-gzip; charset=binary"),
   ("html", "text/html; charset=utf-8"),
   ("ico", "image/x-ico; charset=binary"),
   ("iso", "application/x-iso9660-image; charset=binary"),
   ("js", "application/x-javascript"),
   ("jpg", "image/jpeg"),
   ("jpeg", "image/jpeg"),
   ("m3u", "text/plain; charset=utf-8"),
   ("m4v", "video/mp4; charset=binary"),
   ("mkv", "video/x-matroska; charset=binary"),
   ("mov", "video/quicktime; charset=binary"),
   ("mp3", "audio/mpeg; charset=binary"),
   ("mp4", "video/mp4; charset=binary"),
   ("mpeg", "video/mpeg; charset=binary"),
   ("mpg", "video/mpeg; charset=binary"),
   ("nfo", "text/plain; charset=utf-8"),
   ("ogg", "application/ogg; charset=binary"),
   ("ogm", "application/ogg; charset=binary"),
   ("pdf", "application/pdf; charset=binary"),
   ("pl", "text/x-perl; charset=utf-8"),
   ("png", "image/png; charset=binary"),
   ("rar", "application/x-rar; charset=binary"),
   ("rss", "application/rss+xml; charset=utf-8"),
   ("txt", "text/plain; charset=utf-8"),
   ("wmv", "video/x-ms-asf; charset=binary"),
   ("woff", "application/font-woff"),
   ("xml", "application/xml; charset=utf-8"),
   ("zip", "application/zip; charset=binary"),
   ("zsync", "application/octet-stream")]

/-- `MIME_KEYLEN` -/
def mimeKeylen : Nat := 8

/-- `MIME_VALLEN` -/
def mimeVallen : Nat := 50

/-- `mime_add`, once the table has its hash. -/
def mimeAdd (mime : Hash Bytes) (key value : Bytes) : Hash Bytes :=
  (hashPut mime (key.take mimeKeylen) (some (value.take mimeVallen))).2

/-- `mime_hash` -/
def mimeHash : Hash Bytes :=
  mimeTable.foldl (fun mime tuple => mimeAdd mime (cstr tuple.1) (cstr tuple.2))
    (hashInit (mimeTable.length + 10) (by decide))

/-- The loop and the recursion of `mime_extension`, on the pieces between the
dots of the name, the last one first. -/
def extensionOf : List Bytes → Option Bytes
  | [] => none
  | [_] => none
  | key :: piece :: pieces =>
      -- bla.7z.001, bla.7z.002
      if strIsNumber key then extensionOf (piece :: pieces)
      else if key.length > 5 then none
      else some key

/-- `mime_extension` -/
def mimeExtension (filename : Bytes) : Option Bytes :=
  extensionOf (filename.splitOn '.'.toUInt8).reverse

/-- `mime_magic`.  The answers of `libmagic` are given by `magic`. -/
def mimeMagic (files : Files) (magic : Bytes → Option Bytes) (mime : Hash Bytes)
    (filename key : Bytes) : Hash Bytes :=
  if fileIsreg files filename then
    match magic filename with
    | none => mime
    | some value => mimeAdd mime key value
  else mime

/-- The type of files without a known extension. -/
def mimeDefault (mime : Hash Bytes) : Bytes :=
  (hashGet mime (cstr "___")).getD []

/-- `mime_find`: the type and the table. -/
def mimeFind (files : Files) (magic : Bytes → Option Bytes) (mime : Hash Bytes)
    (filename : Bytes) : Bytes × Hash Bytes :=
  match mimeExtension filename with
  | none => (mimeDefault mime, mime)
  | some key =>
      match hashGet mime key with
      | some value => (value, mime)
      | none =>
          let mime := mimeMagic files magic mime filename key
          ((hashGet mime key).getD (mimeDefault mime), mime)

example :
    (mimeFind (fun _ => none) (fun _ => none) mimeHash (cstr "/var/www/bla.7z.001")).1 =
      cstr "application/x-7z-compressed; charset=binary" := by
  decide +kernel

end Torrentkino
