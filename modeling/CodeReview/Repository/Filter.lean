import CodeReview.Repository.Node

/-!
# What belongs to a review

Which folders a walk enters and which files it lists. Hidden names, ignored folders, files above
the size limit and binary files are left out; some manifests are listed whatever they hold.

Whether a file is binary is decided by its extension, else by its media type, else by a look at its
first bytes.
-/

namespace CodeReview.Filter

open Text

/-- The most bytes of a file that is listed, unless a walk is told otherwise. -/
def defaultSizeLimit : Int := 1000000

/-- How many bytes of a file are looked at. -/
def sampleSize : Nat := 1024

/-- Folders that hold what was built or fetched. -/
def ignoredFolders : List String :=
  ["node_modules", "target", "build", "dist", "venv", "__pycache__", "bin", "obj"]

/-- Manifests, which are listed even if they look binary. -/
def manifests : List String := ["pom.xml", "build.gradle", "package.json", "package-lock.json"]

/-- Extensions that say that a file is binary. -/
def binaryExtensions : List String :=
  ["jar", "war", "ear", "zip", "tar", "gz", "rar", "7z", "jpg", "jpeg", "png", "gif", "bmp", "ico",
   "svg", "pdf", "doc", "docx", "ppt", "pptx", "xls", "xlsx", "class", "so", "dll", "exe", "bin"]

/-- Extensions of source files, of which the media type says nothing. -/
def sourceExtensions : List String :=
  ["java", "kt", "scala", "groovy", "py", "js", "jsx", "mjs", "cjs", "ts", "tsx", "go", "rb", "php",
   "cs", "c", "h", "cpp", "hpp", "rs", "swift", "sh", "css", "scss", "html", "htm", "md", "json",
   "yml", "yaml", "xml", "toml", "ini", "cfg", "properties", "gradle", "sql", "txt"]

/-! ## Names -/

def isHidden (name : String) : Bool := startsWith "." name

/-- Whether a walk stays out of a folder of this name. -/
def isIgnoredFolder (name : String) : Bool := isHidden name || ignoredFolders.contains name

/-- Whether a character may stand in the name of a user or host. -/
def isHostChar (c : Char) : Bool := isWord c || c == '.' || c == '-'

/-- A scheme and `://` in front. -/
def startsWithScheme : List Char → Bool
  | [] => false
  | c :: cs =>
    let rest := cs.dropWhile fun c => c.isAlphanum || c == '+' || c == '.' || c == '-'
    c.isAlpha && rest.length < cs.length && "://".toList.isPrefixOf rest

/-- A user, an at sign, a host and a colon in front; or just `git@`. -/
def startsWithHost (cs : List Char) : Bool :=
  let (user, rest) := cs.span isHostChar
  match rest with
  | '@' :: rest =>
    let (host, rest) := rest.span isHostChar
    !user.isEmpty && !host.isEmpty && rest.head? == some ':'
  | _ => false

/-- Whether a root names a repository somewhere else. -/
def isRemote (root : String) : Bool :=
  let cs := Chars.trim root.toList
  startsWithScheme cs || "git@".toList.isPrefixOf cs || startsWithHost cs

/-! ## Media types -/

/-- Suffixes of images, sounds and films. -/
def mediaSuffixes : List String :=
  [".3g2", ".3gp", ".3gpp", ".3gpp2", ".aac", ".adts", ".aif", ".aifc", ".aiff", ".ass", ".au",
   ".avi", ".avif", ".bmp", ".gif", ".heic", ".heif", ".ico", ".ief", ".jpe", ".jpeg", ".jpg",
   ".loas", ".m1v", ".mov", ".movie", ".mp2", ".mp3", ".mp4", ".mpa", ".mpe", ".mpeg", ".mpg",
   ".opus", ".pbm", ".pgm", ".png", ".pnm", ".ppm", ".qt", ".ra", ".ras", ".rgb", ".snd", ".tif",
   ".tiff", ".wav", ".webm", ".xbm", ".xpm", ".xwd"]

/-- Suffixes of text. -/
def textSuffixes : List String :=
  [".bat", ".c", ".css", ".csv", ".etx", ".h", ".htm", ".html", ".js", ".json", ".ksh", ".mjs",
   ".n3", ".pl", ".py", ".rdf", ".rtx", ".sgm", ".sgml", ".sh", ".srt", ".svg", ".tsv", ".txt",
   ".vcf", ".vtt", ".webmanifest", ".wsdl", ".xml", ".xpdl", ".xsl"]

/-- Suffixes that stand for two, the second of them a packing. -/
def packedSuffixes : List (String × String) :=
  [(".svgz", ".svg.gz"), (".tgz", ".tar.gz"), (".taz", ".tar.gz"), (".tz", ".tar.gz"),
   (".tbz2", ".tar.bz2"), (".txz", ".tar.xz")]

/-- Suffixes of packings. -/
def packings : List String := [".gz", ".Z", ".bz2", ".xz", ".br"]

/-- A name without its suffix, and the suffix. -/
def splitSuffix (name : List Char) : List Char × List Char :=
  let suffix := Path.suffixChars name
  (name.take (name.length - suffix.length), suffix)

/-- The suffix that a media type goes by, in small letters: a packing on top of it is taken off,
also when one suffix stands for both. -/
def mediaSuffix (name : List Char) : String :=
  let (stem, suffix) := splitSuffix name
  let (stem, suffix) :=
    match packedSuffixes.lookup (String.ofList (lower suffix)) with
    | some both => splitSuffix (stem ++ both.toList)
    | none => (stem, suffix)
  let suffix := if packings.contains (String.ofList suffix) then (splitSuffix stem).2 else suffix
  String.ofList (lower suffix)

/-- The name without a scheme in front, and the scheme in small letters. -/
def splitScheme (name : List Char) : List Char × List Char :=
  match name.span fun c => c != '/' && c != ':' with
  | ([], _) => ([], name)
  | (scheme, ':' :: rest) => (lower scheme, rest)
  | _ => ([], name)

/-- Media types of text beside those of the major type `text`. -/
def textTypes : List String :=
  ["application/json", "application/xml", "application/javascript", "application/x-javascript",
   "application/x-sh", "application/x-python", "application/toml", "application/yaml",
   "application/x-yaml"]

/-- Major types that are binary. -/
def binaryMajors : List String := ["image", "audio", "video", "font"]

/-- What a media type says: binary, text, or nothing. -/
def typeVerdict? (type : String) : Option Bool :=
  let major := String.ofList (Chars.splitFirst '/' type.toList).1
  if major == "text" || textTypes.contains type || endsWith "+xml" type || endsWith "+json" type then
    some false
  else if binaryMajors.contains major then some true
  else none

/-- The media type that a `data:` name gives before its comma. One that is not written out is plain
text. -/
def dataType? (rest : List Char) : Option String :=
  let (header, body) := Chars.splitFirst ',' rest
  body.map fun _ =>
    let type := (Chars.splitFirst ';' header).1
    if type.contains '=' || !type.contains '/' then "text/plain" else String.ofList type

/-- What the media type of a file name says: binary, text, or nothing. -/
def mediaVerdict? (name : String) : Option Bool :=
  if sourceExtensions.contains (Path.nameExtension name) then none
  else
    let (scheme, rest) := splitScheme name.toList
    if scheme == "data".toList then (dataType? rest).bind typeVerdict?
    else
      let suffix := mediaSuffix rest
      if mediaSuffixes.contains suffix then some true
      else if textSuffixes.contains suffix then some false
      else none

/-! ## Bytes -/

/-- A control byte that text does not use. -/
def isControl (b : UInt8) : Bool := b < 0x09 || (0x0D < b && b < 0x20 && b != 0x1B)

/-- Leading bytes of archives and pictures. -/
def binaryMarks : List (List UInt8) := [[0x50, 0x4B], [0xFF, 0xD8], [0x89, 0x50, 0x4E, 0x47]]

/-- The byte order mark of UTF-8. -/
def byteOrderMark : List UInt8 := [0xEF, 0xBB, 0xBF]

/-- Whether leading bytes look binary: a known mark, or more than a tenth of control bytes. -/
def looksBinary (sample : List UInt8) : Bool :=
  if sample.isEmpty || byteOrderMark.isPrefixOf sample then false
  else if binaryMarks.any (·.isPrefixOf sample) then true
  else sample.length < 10 * sample.countP isControl

/-- Whether the file at a path is binary. One that cannot be read is. -/
def isBinary (fs : FileSystem) (path : String) : Bool :=
  let name := Path.name path
  if binaryExtensions.contains (Path.nameExtension name) then true
  else match mediaVerdict? name with
    | some verdict => verdict
    | none =>
      match fs.readBytes path with
      | .ok bytes => looksBinary (bytes.take sampleSize)
      | .error _ => true

/-- Whether the file at a path is listed. An unknown size counts as too large. -/
def includes (fs : FileSystem) (path : String) (size : Option Int) (sizeLimit : Int) : Bool :=
  let name := Path.name path
  if isHidden name then false
  else match size with
    | none => false
    | some size =>
      if sizeLimit < size then false else manifests.contains name || !isBinary fs path

end CodeReview.Filter
