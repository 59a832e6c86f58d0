import Arcux.Codec.Reader

namespace Arcux.Pd

open Codec

/-- How the atomic replacement of a file ends. One that fails leaves the old file or the new one. -/
inductive AtomicWrite where
  | done
  | failed (replaced : Bool)
  deriving DecidableEq

namespace AtomicWrite

def replaces : AtomicWrite → Bool
  | done => true
  | failed replaced => replaced

def file (write : AtomicWrite) (old : Option Bytes) (bytes : Bytes) : Option Bytes :=
  if write.replaces then some bytes else old

end AtomicWrite

def putBytes (bytes : Bytes) : Bytes := toBE 4 bytes.length ++ bytes

end Arcux.Pd
