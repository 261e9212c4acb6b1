import NetLib.Queue.Sequential
import NetLib.Queue.Mpsc
import NetLib.Queue.PointerBuffer
import NetLib.Queue.LockBased
import NetLib.Server.Pinning
import NetLib.Server.Stopping
import NetLib.Server.Monitor
import NetLib.Slot.Pipeline
import NetLib.Slot.LateSend
import NetLib.Slot.Overflow
import NetLib.Buffer.Broadcast
import NetLib.Recv.Room
import NetLib.Recv.Violation
import NetLib.Recv.Consumer
import NetLib.Recv.Stranded
import NetLib.Recv.Delivered
import NetLib.Server.Ownership
import NetLib.Timeout.Silent
import NetLib.Group.Handled
import NetLib.Group.Callbacks
import NetLib.Buffer.Fifo
import NetLib.Buffer.Unchanged
import NetLib.Buffer.Values
import NetLib.Stack.Aba
import NetLib.Settings.Again
import NetLib.Settings.RoundTrip
import NetLib.Group.Order
import NetLib.Group.Full
import NetLib.Group.HandleJob
import NetLib.Group.SelfWait
import NetLib.Group.Registry
import NetLib.Group.Pacing
import NetLib.Subnet.Match
import NetLib.Subnet.Load
import NetLib.Pools.MultiThread
import NetLib.Pools.Tls
import NetLib.Pools.Modern
import NetLib.Handles.Exact
import NetLib.Queue.TlsFifo
