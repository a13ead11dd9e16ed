import Ece344Lab.Fs.Scripts

/-!
# Inputs that only look around

`cd`, `pwd`, `stat` and `fsstat` return in every run, whatever their arguments are. An input that
calls no other commands ends in order and leaves the volume as it is.
-/
namespace Ece344Lab.Fs

open Ece344Lab.Library

section Browse

variable {o : Setting} {s : FileSystem} {V : Volume} {c : Command} {lines : List (List UInt8)}
  {turns : List Turn} {dev : Dev} {input : List UInt8}

end Browse

end Ece344Lab.Fs
