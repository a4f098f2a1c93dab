import TraceStore.Instances

/-!
# Errors

Every operation on a trace that can fail says why with an `Error`. `Error.message` is the text
shown for it, and `Error.isMisuse` tells the errors that a handle raises before it asks its
backend for anything.
-/
namespace TraceStore

/-- What a handle is open for. -/
inductive Mode
  | read
  | write
deriving DecidableEq, Repr

namespace Mode

/-- Name of a mode in messages. -/
def name : Mode → String
  | read => "Read"
  | write => "Write"

end Mode

/-- Failures of the file system, and of decoding what it delivers. -/
inductive IoError
  | notFound
  | isDirectory
  | notDirectory
  | alreadyExists
  | storageFull
  | gzipHeader
  | gzipFieldTooLong
  | gzipChecksum
  | deflate
  | zstd
deriving DecidableEq, Repr

namespace IoError

/-- Text of a failure. -/
def message : IoError → String
  | notFound => "No such file or directory (os error 2)"
  | isDirectory => "Is a directory (os error 21)"
  | notDirectory => "Not a directory (os error 20)"
  | alreadyExists => "File exists (os error 17)"
  | storageFull => "No space left on device (os error 28)"
  | gzipHeader => "invalid gzip header"
  | gzipFieldTooLong => "gzip header field too long"
  | gzipChecksum => "corrupt gzip stream does not have a matching checksum"
  | deflate => "corrupt deflate stream"
  | zstd => "corrupt zstd data"

end IoError

/-- What is wrong with the contents of a trace. -/
inductive Corruption
  | magicMismatch
  | truncatedHeader
  | lengthOverLimit
  | truncatedChunk
  | lengthOverField
  | truncatedGzip
  | failedGzip
  | snappyEncoder
  | snappyHeader
  | snappyOverLimit
  | snappyBlock
  | zstdDecoder
  | zstdFrame
  | zstdOverLimit
  /-- A block codec's own reason. -/
  | codec (reason : String)
deriving DecidableEq, Repr

namespace Corruption

/-- Text of a corruption. -/
def message : Corruption → String
  | magicMismatch => "magic mismatch"
  | truncatedHeader => "truncated chunk header"
  | lengthOverLimit => "chunk length exceeds limit"
  | truncatedChunk => "truncated chunk"
  | lengthOverField => "compressed chunk exceeds u32 limit"
  | truncatedGzip => "truncated gzip stream"
  | failedGzip => "gzip stream failed to decode"
  | snappyEncoder => "snappy compress failed"
  | snappyHeader => "bad snappy block header"
  | snappyOverLimit => "snappy block exceeds chunk limit"
  | snappyBlock => "snappy block failed to decode"
  | zstdDecoder => "zstd decoder init failed"
  | zstdFrame => "zstd frame failed to decode"
  | zstdOverLimit => "zstd frame exceeds chunk limit"
  | codec reason => reason

end Corruption

/-- Which write option is out of range. -/
inductive ConfigFault
  | emptyChunk
  | chunkTooLarge
  | zlibLevel
  | zstdLevel
deriving DecidableEq, Repr

namespace ConfigFault

/-- Text of an option out of range. -/
def message : ConfigFault → String
  | emptyChunk => "chunk_size must be > 0"
  | chunkTooLarge => "chunk_size exceeds 64 MB"
  | zlibLevel => "zlib_level must be 0-9"
  | zstdLevel => "zstd_level must be 1-22"

end ConfigFault

/-- Why an operation on a trace failed. -/
inductive Error
  | io (cause : IoError)
  | notOpened
  | wrongMode (expected actual : Mode)
  | offsetsUnsupported
  | invalidOffset (chunk : UInt64) (inChunk : UInt32)
  | unexpectedEof
  | corrupt (what : Corruption)
  | invalidConfig (fault : ConfigFault)
  | unknownFormat
deriving DecidableEq, Repr

namespace Error

/-- Text of an error. -/
def message : Error → String
  | io cause => "io error: " ++ cause.message
  | notOpened => "file is not opened"
  | wrongMode expected actual =>
    "file opened for " ++ actual.name ++ ", operation requires " ++ expected.name
  | offsetsUnsupported => "backend does not support offsets"
  | invalidOffset chunk inChunk =>
    "invalid offset: chunk " ++ toString chunk.toNat ++ ", offset in chunk "
      ++ toString inChunk.toNat
  | unexpectedEof => "unexpected end of stream"
  | corrupt what => "corrupt data: " ++ what.message
  | invalidConfig fault => "invalid config: " ++ fault.message
  | unknownFormat => "unknown trace file format"

/-- Whether a handle raises this error on its own, before its backend is asked. -/
def isMisuse : Error → Bool
  | notOpened | wrongMode .. | offsetsUnsupported => true
  | _ => false

end Error
end TraceStore
