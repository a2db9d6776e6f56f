import IronArray.Reduce.Truth
import IronArray.Reduce.Oneshot
import IronArray.Reduce.Axes
import IronArray.Reduce.Buffers
import IronArray.Reduce.Variance
import IronArray.Views.TypeChain
import IronArray.Views.SqueezeChain
import IronArray.Btune.Run
import IronArray.Constructors.Element
import IronArray.Constructors.Numbers
import IronArray.Constructors.Geometry
import IronArray.Constructors.Split
import IronArray.Containers.Good
import IronArray.Containers.ReadOnly
import IronArray.Containers.Coherence
import IronArray.Linalg.Gemv
import IronArray.Linalg.Gemm
import IronArray.Linalg.Panels
import IronArray.Linalg.Law
import IronArray.Linalg.Algebra
import IronArray.Linalg.Validate
import IronArray.Btune.Stop
import IronArray.Btune.Records
import IronArray.Expression.Window
import IronArray.Iterators.Write
import IronArray.Iterators.Read
import IronArray.Iterators.Alike
import IronArray.Iterators.Elements
import IronArray.Iterators.Empty
import IronArray.Iterators.Repartition
import IronArray.Reduce.Agree
import IronArray.Reduce.Compose
import IronArray.Views.Support
import IronArray.Views.Window
import IronArray.Views.Rectangles
import IronArray.Containers.Regions
import IronArray.Containers.Slots
import IronArray.Containers.Proxy
import IronArray.Containers.Assign
import IronArray.Containers.Compare
import IronArray.Settings.Cparams
import IronArray.Settings.Partition
import IronArray.Settings.Halving
import IronArray.Settings.Advice
import IronArray.Settings.Words
import IronArray.Settings.Endless
import IronArray.Constructors.Pieces
import IronArray.Constructors.ChunkIndex
import IronArray.Constructors.Random
import IronArray.Random.Kstest
import IronArray.Constructors.Positions
import IronArray.Core.Logged
import IronArray.Expression.Code
import IronArray.Expression.Tables
import IronArray.Expression.Bounds
import IronArray.Expression.Empty
import IronArray.Expression.Relayout
import IronArray.Expression.Operands
import IronArray.Expression.Elementwise
import IronArray.Expression.Capacity
import IronArray.Minjugg.Roundtrip
import IronArray.Minjugg.Overflow
import IronArray.Minjugg.Loop
import IronArray.Minjugg.Pipeline
