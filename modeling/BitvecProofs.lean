import BitvecProofs.Store
import BitvecProofs.Access
import BitvecProofs.Pointer
import BitvecProofs.Slice
import BitvecProofs.Point
import BitvecProofs.Index
import BitvecProofs.Query
import BitvecProofs.Write
import BitvecProofs.Arith
import BitvecProofs.Neg
import BitvecProofs.Shift
import BitvecProofs.Frame
import BitvecProofs.Interleave
import BitvecProofs.Count
import BitvecProofs.Bitwise
import BitvecProofs.Guard
import BitvecProofs.FastShift
import BitvecProofs.Shortcut
