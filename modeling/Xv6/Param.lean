/-!
Kernel-wide limits from `kernel/param.h` and the on-disk format constants of
`kernel/fs.h`. Sizes of C structs are written out as the
RISC-V compiler lays them out: `struct dinode` is four shorts, a uint and
thirteen uints, 64 bytes; `struct dirent` is a ushort and fourteen chars,
16 bytes.
-/

namespace Xv6

def nProc : Nat := 64
def nOFile : Nat := 16
def nFile : Nat := 100
def nInode : Nat := 50
def rootDev : Nat := 1
def maxOpBlocks : Nat := 10
-- max data blocks in on-disk log
def logSize : Nat := maxOpBlocks * 3
def nBuf : Nat := maxOpBlocks * 3
def fsSize : Nat := 2000
def maxPath : Nat := 128

def rootIno : Nat := 1
def bSize : Nat := 1024
def fsMagic : Nat := 0x10203040
def nDirect : Nat := 12
-- BSIZE / sizeof(uint)
def nIndirect : Nat := bSize / 4
def maxFile : Nat := nDirect + nIndirect

def dinodeSize : Nat := 64
-- inodes per block
def ipb : Nat := bSize / dinodeSize
-- bitmap bits per block
def bpb : Nat := bSize * 8
def dirSiz : Nat := 14
def direntSize : Nat := 16

end Xv6
